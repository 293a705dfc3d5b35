/-
# `Base.Host` — running programs that can be interrupted and lost

A `Host` runs one command at a time.  A command is a program (`Base.Prog`); one
event executes its next call, and between any two calls the environment may move
(`env`) or the process may die and start again (`reboot`), which throws the rest
of the program away and keeps of the world what survives.  `Host.step` executes
one event; `Reach` is the same as a relation, with a `Guard` that every step has
to meet, and `Host.run` executes a list of events under a guard that can be
evaluated.

`Cert` is the proof rule.  A client gives, for each command, a protocol its
program keeps from the state `t₀ c` on, an assertion `J c t h w` for a program of
command `c` in protocol state `t` whose next call is `h`, and an assertion `I w` for
the idle host.  Each field is about one event; `Cert.sound` is the induction over runs, done once.

`Host.diary` is the same host with a history beside its world: the commands that ended,
each with the calls it made and how it ended.
-/
import TreasuryForge.Base.Prog

namespace Resume

/-- A process: what its commands run, what its calls do, what goes on around it. -/
structure Host (W Op : Type) (Ret : Op → Type) (ε α Cmd Ans Env Boot : Type) where
  entry : Cmd → Prog Op Ret ε α
  exec : W → (op : Op) → Ans → Option (Ret op × W)
  env : W → Env → Option W
  finish : W → Cmd → Except ε α → W
  reboot : W → Boot → Option W

/-- The world, and the command under way with what is left of its program. -/
structure Config (W Op : Type) (Ret : Op → Type) (ε α Cmd : Type) where
  world : W
  busy : Option (Cmd × Prog Op Ret ε α)

inductive Event (Cmd Ans Env Boot : Type) where
  | call (c : Cmd)
  | answer (a : Ans)
  | done
  | env (e : Env)
  | crash (b : Boot)

/-- Conditions on the steps of a run: each on the state before the step and on
what comes in with it.  `env` also sees the next call of the running program. -/
structure Guard (W Op Cmd Ans Env Boot : Type) where
  call : W → Cmd → Prop := fun _ _ => True
  answer : Cmd → W → Op → Ans → Prop := fun _ _ _ _ => True
  env : W → Option Op → Env → Prop := fun _ _ _ => True
  crash : W → Boot → Prop := fun _ _ => True

variable {W Op : Type} {Ret : Op → Type} {ε α Cmd Ans Env Boot T : Type}

/-- No condition. -/
def Guard.any : Guard W Op Cmd Ans Env Boot := {}

/-- A guard that can be evaluated. -/
class Guard.Checked (G : Guard W Op Cmd Ans Env Boot) where
  call : ∀ w c, Decidable (G.call w c)
  answer : ∀ c w op a, Decidable (G.answer c w op a)
  env : ∀ w h e, Decidable (G.env w h e)
  crash : ∀ w b, Decidable (G.crash w b)

instance : (Guard.any : Guard W Op Cmd Ans Env Boot).Checked where
  call _ _ := isTrue trivial
  answer _ _ _ _ := isTrue trivial
  env _ _ _ := isTrue trivial
  crash _ _ := isTrue trivial

/-- The next call of the running program. -/
def Config.head (c : Config W Op Ret ε α Cmd) : Option Op := c.busy.bind (fun p => p.2.head)

namespace Host

variable (H : Host W Op Ret ε α Cmd Ans Env Boot)

/-- One event, if it can happen. -/
def step (c : Config W Op Ret ε α Cmd) : Event Cmd Ans Env Boot → Option (Config W Op Ret ε α Cmd)
  | .call cmd =>
      match c.busy with
      | none => some ⟨c.world, some (cmd, H.entry cmd)⟩
      | some _ => none
  | .answer a =>
      match c.busy with
      | some (cmd, .call op k) => (H.exec c.world op a).map fun r => ⟨r.2, some (cmd, k r.1)⟩
      | _ => none
  | .done =>
      match c.busy with
      | some (cmd, .ret a) => some ⟨H.finish c.world cmd (.ok a), none⟩
      | some (cmd, .raise e) => some ⟨H.finish c.world cmd (.error e), none⟩
      | _ => none
  | .env e => (H.env c.world e).map fun w => ⟨w, c.busy⟩
  | .crash b => (H.reboot c.world b).map fun w => ⟨w, none⟩

/-- Configurations a guarded run reaches from an idle host in world `w₀`. -/
inductive Reach (G : Guard W Op Cmd Ans Env Boot) (w₀ : W) : Config W Op Ret ε α Cmd → Prop
  | start : Reach G w₀ ⟨w₀, none⟩
  | call {w : W} {c : Cmd} : Reach G w₀ ⟨w, none⟩ → G.call w c →
      Reach G w₀ ⟨w, some (c, H.entry c)⟩
  | answer {w w' : W} {c : Cmd} {op : Op} {k : Ret op → Prog Op Ret ε α} {a : Ans} {r : Ret op} :
      Reach G w₀ ⟨w, some (c, .call op k)⟩ → G.answer c w op a → H.exec w op a = some (r, w') →
      Reach G w₀ ⟨w', some (c, k r)⟩
  | ret {w : W} {c : Cmd} {a : α} : Reach G w₀ ⟨w, some (c, .ret a)⟩ →
      Reach G w₀ ⟨H.finish w c (.ok a), none⟩
  | raise {w : W} {c : Cmd} {e : ε} : Reach G w₀ ⟨w, some (c, .raise e)⟩ →
      Reach G w₀ ⟨H.finish w c (.error e), none⟩
  | env {cf : Config W Op Ret ε α Cmd} {e : Env} {w' : W} : Reach G w₀ cf →
      G.env cf.world cf.head e → H.env cf.world e = some w' → Reach G w₀ ⟨w', cf.busy⟩
  | crash {cf : Config W Op Ret ε α Cmd} {b : Boot} {w' : W} : Reach G w₀ cf →
      G.crash cf.world b → H.reboot cf.world b = some w' → Reach G w₀ ⟨w', none⟩

variable {H}

/-- What the guard asks of one event. -/
def Meets (G : Guard W Op Cmd Ans Env Boot) (c : Config W Op Ret ε α Cmd) :
    Event Cmd Ans Env Boot → Prop
  | .call cmd => G.call c.world cmd
  | .answer a =>
      match c.busy with
      | some (cmd, .call op _) => G.answer cmd c.world op a
      | _ => True
  | .done => True
  | .env e => G.env c.world c.head e
  | .crash b => G.crash c.world b

theorem Reach.step {G : Guard W Op Cmd Ans Env Boot} {w₀ : W} {c c' : Config W Op Ret ε α Cmd}
    {e : Event Cmd Ans Env Boot} (hc : H.Reach G w₀ c) (hm : Meets G c e)
    (h : H.step c e = some c') : H.Reach G w₀ c' := by
  obtain ⟨w, b⟩ := c
  cases e with
  | call cmd =>
      cases b with
      | some _ => cases h
      | none => cases h; exact .call hc hm
  | answer a =>
      rcases b with _ | ⟨cmd, p⟩
      · cases h
      · cases p with
        | ret _ => cases h
        | raise _ => cases h
        | call op k =>
            obtain ⟨⟨r, w'⟩, hx, rfl⟩ := Option.map_eq_some_iff.mp h
            exact .answer hc hm hx
  | done =>
      rcases b with _ | ⟨cmd, p⟩
      · cases h
      · cases p with
        | ret _ => cases h; exact .ret hc
        | raise _ => cases h; exact .raise hc
        | call _ _ => cases h
  | env e =>
      obtain ⟨w', hw, rfl⟩ := Option.map_eq_some_iff.mp h
      exact Reach.env hc hm hw
  | crash bt =>
      obtain ⟨w', hw, rfl⟩ := Option.map_eq_some_iff.mp h
      exact Reach.crash hc hm hw

/-! ## Running a list of events -/

instance {G : Guard W Op Cmd Ans Env Boot} [G.Checked] (c : Config W Op Ret ε α Cmd)
    (e : Event Cmd Ans Env Boot) : Decidable (Meets G c e) :=
  match e with
  | .call cmd => Guard.Checked.call c.world cmd
  | .answer a =>
      match c with
      | ⟨w, some (cmd, .call op _)⟩ => Guard.Checked.answer cmd w op a
      | ⟨_, some (_, .ret _)⟩ | ⟨_, some (_, .raise _)⟩ | ⟨_, none⟩ => isTrue trivial
  | .done => isTrue trivial
  | .env e => Guard.Checked.env c.world c.head e
  | .crash b => Guard.Checked.crash c.world b

variable (H) in
/-- The events one after the other, each of which has to meet the guard. -/
def run (G : Guard W Op Cmd Ans Env Boot) [G.Checked] :
    Config W Op Ret ε α Cmd → List (Event Cmd Ans Env Boot) → Option (Config W Op Ret ε α Cmd)
  | c, [] => some c
  | c, e :: es => if Meets G c e then (H.step c e).bind (run G · es) else none

theorem Reach.run {G : Guard W Op Cmd Ans Env Boot} [G.Checked] {w₀ : W}
    {c' : Config W Op Ret ε α Cmd} :
    ∀ {es : List (Event Cmd Ans Env Boot)} {c : Config W Op Ret ε α Cmd},
      H.Reach G w₀ c → H.run G c es = some c' → H.Reach G w₀ c'
  | [], _, hc, h => by cases h; exact hc
  | e :: es, c, hc, h => by
      unfold Host.run at h
      split at h
      · next hm =>
          obtain ⟨c₁, h₁, h₂⟩ := Option.bind_eq_some_iff.mp h
          exact (hc.step hm h₁).run h₂
      · cases h

variable (H) in
/-- A run that can be executed and passes a test reaches a configuration that does. -/
theorem reach_of_run (G : Guard W Op Cmd Ans Env Boot) [G.Checked] (w₀ : W)
    (es : List (Event Cmd Ans Env Boot)) (p : Config W Op Ret ε α Cmd → Bool)
    (h : (H.run G ⟨w₀, none⟩ es).any p = true) : ∃ c, H.Reach G w₀ c ∧ p c = true := by
  cases hr : H.run G ⟨w₀, none⟩ es with
  | none => rw [hr] at h; cases h
  | some c =>
      rw [hr] at h
      exact ⟨c, Reach.start.run hr, h⟩

/-! ## The proof rule -/

/-- A certificate that every guarded run of `H` keeps `I` while idle and `J`
while busy. -/
structure Cert (H : Host W Op Ret ε α Cmd Ans Env Boot) (G : Guard W Op Cmd Ans Env Boot)
    (P : Cmd → Protocol Op Ret T) (t₀ : Cmd → T) (Q : Cmd → T → Except ε α → Prop) (w₀ : W)
    (I : W → Prop) (J : Cmd → T → Option Op → W → Prop) : Prop where
  keeps : ∀ c, (P c).Keeps (t₀ c) (H.entry c) (Q c)
  init : I w₀
  enter : ∀ {w c h}, I w → G.call w c → (P c).AllowsHead (t₀ c) h → J c (t₀ c) h w
  answer : ∀ {w w' c t op a r h}, J c t (some op) w → (P c).allowed t op → G.answer c w op a →
    H.exec w op a = some (r, w') → (P c).AllowsHead ((P c).next t op r) h →
    J c ((P c).next t op r) h w'
  finish : ∀ {w c t r}, J c t none w → Q c t r → I (H.finish w c r)
  envIdle : ∀ {w w' e}, I w → G.env w none e → H.env w e = some w' → I w'
  envBusy : ∀ {w w' c t h e}, J c t h w → (P c).AllowsHead t h → G.env w h e →
    H.env w e = some w' → J c t h w'
  crashIdle : ∀ {w w' b}, I w → G.crash w b → H.reboot w b = some w' → I w'
  crashBusy : ∀ {w w' c t h b}, J c t h w → G.crash w b → H.reboot w b = some w' → I w'

/-- What a certificate says of one configuration. -/
def Holds (P : Cmd → Protocol Op Ret T) (Q : Cmd → T → Except ε α → Prop)
    (I : W → Prop) (J : Cmd → T → Option Op → W → Prop) (c : Config W Op Ret ε α Cmd) : Prop :=
  match c.busy with
  | none => I c.world
  | some (cmd, p) => ∃ t, (P cmd).Keeps t p (Q cmd) ∧ J cmd t p.head c.world

variable {G : Guard W Op Cmd Ans Env Boot} {P : Cmd → Protocol Op Ret T} {t₀ : Cmd → T}
  {Q : Cmd → T → Except ε α → Prop} {w₀ : W} {I : W → Prop} {J : Cmd → T → Option Op → W → Prop}

theorem Cert.sound (C : Cert H G P t₀ Q w₀ I J) {c : Config W Op Ret ε α Cmd}
    (hc : H.Reach G w₀ c) : Holds P Q I J c := by
  induction hc with
  | start => exact C.init
  | call _ hg ih => exact ⟨t₀ _, C.keeps _, C.enter ih hg (C.keeps _).allowsHead⟩
  | answer _ hg hx ih =>
      obtain ⟨t, hk, hj⟩ := ih
      exact ⟨_, hk.2 _, C.answer hj hk.1 hg hx (hk.2 _).allowsHead⟩
  | ret _ ih =>
      obtain ⟨t, hk, hj⟩ := ih
      exact C.finish hj hk
  | raise _ ih =>
      obtain ⟨t, hk, hj⟩ := ih
      exact C.finish hj hk
  | @env cf _ _ _ hg hx ih =>
      obtain ⟨w, _ | ⟨cmd, p⟩⟩ := cf
      · exact C.envIdle ih hg hx
      · obtain ⟨t, hk, hj⟩ := ih
        exact ⟨t, hk, C.envBusy hj hk.allowsHead hg hx⟩
  | @crash cf _ _ _ hg hx ih =>
      obtain ⟨w, _ | ⟨cmd, p⟩⟩ := cf
      · exact C.crashIdle ih hg hx
      · obtain ⟨t, _, hj⟩ := ih
        exact C.crashBusy hj hg hx

/-- A property that both assertions imply holds in every configuration reached. -/
theorem Cert.always (C : Cert H G P t₀ Q w₀ I J) {R : W → Prop} (hI : ∀ w, I w → R w)
    (hJ : ∀ c t h w, J c t h w → R w) {c : Config W Op Ret ε α Cmd} (hc : H.Reach G w₀ c) :
    R c.world := by
  have h := C.sound hc
  obtain ⟨w, _ | ⟨cmd, p⟩⟩ := c
  · exact hI _ h
  · obtain ⟨t, _, hj⟩ := h
    exact hJ _ _ _ _ hj

end Host

/-! ## A diary -/

/-- A command that ended: the calls it made, and how it ended. -/
structure Entry (Op ε α Cmd : Type) where
  cmd : Cmd
  calls : List Op
  result : Except ε α

/-- The calls the command under way has made, and the commands that ended. -/
structure Diary (Op ε α Cmd : Type) where
  calls : List Op := []
  past : List (Entry Op ε α Cmd) := []

/-- The same host, keeping a diary. -/
def Host.diary (H : Host W Op Ret ε α Cmd Ans Env Boot) :
    Host (W × Diary Op ε α Cmd) Op Ret ε α Cmd Ans Env Boot where
  entry := H.entry
  exec s op a := (H.exec s.1 op a).map fun r => (r.1, (r.2, { s.2 with calls := s.2.calls ++ [op] }))
  env s e := (H.env s.1 e).map fun w => (w, s.2)
  finish s c r := (H.finish s.1 c r, { past := s.2.past ++ [⟨c, s.2.calls, r⟩] })
  reboot s b := (H.reboot s.1 b).map fun w => (w, { past := s.2.past })

end Resume
