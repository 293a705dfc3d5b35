/-
# `Live.Watchdog` — the dead-man's switch between two processes

`beat` and `supervise` each read the heartbeat file and later replace the whole of
it, the one in the bot's process and the other in the supervisor's.  A schedule is
any list of their atomic steps; a step that is not its process's next one does
nothing.

    beatRead        `beat` reads, and is refused or knows what it will write
    beatWrite       `beat` replaces the file
    superviseRead   `supervise` reads, and returns or is about to trip
    onTrip          `on_trip` runs, to its end or until it raises
    superviseWrite  `supervise` replaces the file by a tripped one

A beat that has passed its check writes what it decided on, whatever happened since.
`latched_iff` says that this is all that can undo a trip: the switch latches in a
schedule exactly when no trip is persisted between the read and the write of a beat.
-/
import TreasuryForge.Base.Window
import TreasuryForge.Live.Guards

namespace TreasuryForge

open Window

/-- How far a call of `supervise` has got. -/
inductive Stage where
  | idle
  /-- the heartbeat is stale: `on_trip` comes next, and this heartbeat is to be written -/
  | tripping (reason : String) (hb : Heartbeat)
  /-- `on_trip` has returned -/
  | tripped (hb : Heartbeat)
  deriving DecidableEq

/-- The file, the call under way in each process, what has been persisted, and how often
`on_trip` has run to its end.  `overtaken` says that a trip has been persisted since the
beat under way read the file. -/
structure Watch where
  file : Option Heartbeat
  bot : Option Heartbeat := none
  overtaken : Bool := false
  supervisor : Stage := .idle
  written : List Heartbeat := []
  fired : ℕ := 0

inductive WatchAct where
  | beatRead (now : ℚ)
  | beatWrite
  | superviseRead (now : ℚ)
  | onTrip (completes : Bool)
  | superviseWrite
  deriving DecidableEq

namespace DeadMansSwitch

variable (d : DeadMansSwitch)

def step (w : Watch) : WatchAct → Watch
  | .beatRead now =>
      match w.bot, beat w.file now with
      | none, .ok hb => { w with bot := some hb, overtaken := false }
      | _, _ => w
  | .beatWrite =>
      match w.bot with
      | some hb => { w with file := some hb, bot := none, written := w.written ++ [hb] }
      | none => w
  | .superviseRead now =>
      match w.supervisor, d.supervise w.file now with
      | .idle, some (reason, hb) => { w with supervisor := .tripping reason hb }
      | _, _ => w
  | .onTrip completes =>
      match w.supervisor with
      | .tripping _ hb =>
          if completes then { w with supervisor := .tripped hb, fired := w.fired + 1 }
          else { w with supervisor := .idle }
      | _ => w
  | .superviseWrite =>
      match w.supervisor with
      | .tripped hb =>
          { w with
            file := some hb, supervisor := .idle, overtaken := true, written := w.written ++ [hb] }
      | _ => w

/-- What a schedule makes of a file. -/
def run (file : Option Heartbeat) (acts : List WatchAct) : Watch := acts.foldl d.step { file }

end DeadMansSwitch

/-- Nothing untripped was persisted after a trip, and `on_trip` ran to its end once at most. -/
structure Latched (w : Watch) : Prop where
  kept : w.written.Pairwise fun hb hb' => hb.tripped = true → hb'.tripped = true
  once : w.fired ≤ 1

instance (w : Watch) : Decidable (Latched w) :=
  decidable_of_iff (_ ∧ _) ⟨fun h => ⟨h.1, h.2⟩, fun h => ⟨h.kept, h.once⟩⟩

/-- A beat writes only if no trip was persisted since it read. -/
def InTime (w : Watch) (a : WatchAct) : Prop :=
  a = .beatWrite → w.bot.isSome = true → w.overtaken = false

instance (w : Watch) (a : WatchAct) : Decidable (InTime w a) :=
  inferInstanceAs (Decidable (_ → _ → _))

namespace DeadMansSwitch

variable {d : DeadMansSwitch} {file : Option Heartbeat} {w : Watch} {a : WatchAct} {now : ℚ}
  {hb : Heartbeat}

/-! ## What each call decides -/

theorem beat_spec (h : beat file now = .ok hb) : tripped file = false ∧ hb.tripped = false := by
  unfold beat at h
  split at h
  · split at h
    · cases h
    · next prev hp =>
        cases h
        exact ⟨by simpa [tripped] using hp, rfl⟩
  · cases h
    exact ⟨rfl, rfl⟩

theorem supervise_spec {reason : String} (h : d.supervise file now = some (reason, hb)) :
    tripped file = false ∧ hb.tripped = true := by
  unfold supervise at h
  split at h
  · cases h
  · split at h
    · cases h
    · next prev hp =>
        split at h
        · cases h
        · cases h
          exact ⟨by simpa [tripped] using hp, rfl⟩

/-! ## Every schedule -/

/-- What holds in any schedule: a beat under way writes an untripped heartbeat, over a
tripped file exactly when it was overtaken, and then a trip is among what was written. -/
structure Sound (w : Watch) : Prop where
  beat : ∀ hb ∈ w.bot, hb.tripped = false
  file : w.bot.isSome = true → w.overtaken = tripped w.file
  trip : w.bot.isSome = true → w.overtaken = true → ∃ hb ∈ w.written, hb.tripped = true
  stage : ∀ hb, w.supervisor = .tripped hb → hb.tripped = true
  plan : ∀ reason hb, w.supervisor = .tripping reason hb → hb.tripped = true

theorem Sound.step (h : Sound w) : Sound (d.step w a) := by
  cases a with
  | beatRead now =>
      simp only [DeadMansSwitch.step]
      split
      · next hb _ hbeat =>
          obtain ⟨hfile, hhb⟩ := beat_spec hbeat
          exact {
            beat := fun _ hm => by cases hm; exact hhb
            file := fun _ => hfile.symm
            trip := fun _ he => by cases he
            stage := h.stage
            plan := h.plan }
      · exact h
  | beatWrite =>
      simp only [DeadMansSwitch.step]
      split
      · exact {
          beat := fun _ hm => by cases hm
          file := fun he => by cases he
          trip := fun he => by cases he
          stage := h.stage
          plan := h.plan }
      · exact h
  | superviseRead now =>
      simp only [DeadMansSwitch.step]
      split
      · next reason hb _ hsup =>
          obtain ⟨-, hhb⟩ := supervise_spec hsup
          exact {
            beat := h.beat
            file := h.file
            trip := h.trip
            stage := fun _ he => by cases he
            plan := fun _ _ he => by cases he; exact hhb }
      · exact h
  | onTrip completes =>
      simp only [DeadMansSwitch.step]
      split
      · next reason hb hs =>
          split
          · exact {
              beat := h.beat
              file := h.file
              trip := h.trip
              stage := fun _ he => by cases he; exact h.plan _ _ hs
              plan := fun _ _ he => by cases he }
          · exact {
              beat := h.beat
              file := h.file
              trip := h.trip
              stage := fun _ he => by cases he
              plan := fun _ _ he => by cases he }
      · exact h
  | superviseWrite =>
      simp only [DeadMansSwitch.step]
      split
      · next hb hs =>
          have hhb := h.stage _ hs
          exact {
            beat := h.beat
            file := fun _ => hhb.symm
            trip := fun _ _ => ⟨hb, List.mem_append_right _ List.mem_cons_self, hhb⟩
            stage := fun _ he => by cases he
            plan := fun _ _ he => by cases he }
      · exact h

theorem sound_start (file : Option Heartbeat) : Sound { file } where
  beat _ hm := by cases hm
  file he := by cases he
  trip he := by cases he
  stage _ he := by cases he
  plan _ _ he := by cases he

/-- What is persisted stays in the history. -/
theorem written_step (w : Watch) (a : WatchAct) : w.written <+: (d.step w a).written := by
  cases a with
  | beatWrite =>
      simp only [DeadMansSwitch.step]
      split
      · exact List.prefix_append ..
      · exact List.prefix_refl _
  | superviseWrite =>
      simp only [DeadMansSwitch.step]
      split
      · exact List.prefix_append ..
      · exact List.prefix_refl _
  | beatRead now =>
      simp only [DeadMansSwitch.step]
      split <;> exact List.prefix_refl _
  | superviseRead now =>
      simp only [DeadMansSwitch.step]
      split <;> exact List.prefix_refl _
  | onTrip completes =>
      simp only [DeadMansSwitch.step]
      split
      · split <;> exact List.prefix_refl _
      · exact List.prefix_refl _

theorem written_run (acts : List WatchAct) :
    ∀ w : Watch, w.written <+: (acts.foldl d.step w).written := by
  induction acts with
  | nil => exact fun w => List.prefix_refl _
  | cons a acts ih => exact fun w => (written_step w a).trans (ih _)

/-! ## Schedules in which no beat is overtaken -/

/-- What then holds besides: no trip is undone, and the supervisor's stage says how often
`on_trip` has run. -/
structure Held (w : Watch) : Prop where
  sound : Sound w
  kept : w.written.Pairwise fun hb hb' => hb.tripped = true → hb'.tripped = true
  last : ∀ hb ∈ w.written, hb.tripped = true → tripped w.file = true
  idle : w.supervisor = .idle → w.fired = 0 ∨ w.fired = 1 ∧ tripped w.file = true
  tripping : ∀ reason hb, w.supervisor = .tripping reason hb → w.fired = 0
  fired : ∀ hb, w.supervisor = .tripped hb → w.fired = 1

theorem Held.step (h : Held w) (hin : InTime w a) : Held (d.step w a) := by
  have hsound : Sound (d.step w a) := h.sound.step
  cases a with
  | beatRead now =>
      simp only [DeadMansSwitch.step] at hsound ⊢
      split at hsound
      · exact {
          sound := hsound
          kept := h.kept
          last := h.last
          idle := h.idle
          tripping := h.tripping
          fired := h.fired }
      · exact h
  | beatWrite =>
      simp only [DeadMansSwitch.step] at hsound ⊢
      split at hsound
      · next hb hbot =>
          -- the file is not tripped, so no trip has been persisted yet
          have hsome : w.bot.isSome = true := by rw [hbot]; rfl
          have hfile : tripped w.file = false := (h.sound.file hsome).symm.trans (hin rfl hsome)
          have hnone : ∀ hb' ∈ w.written, ¬ hb'.tripped = true := fun hb' hm ht => by
            rw [h.last hb' hm ht] at hfile
            cases hfile
          have hhb : ¬ hb.tripped = true := by rw [h.sound.beat hb hbot]; exact Bool.false_ne_true
          exact {
            sound := hsound
            kept := List.pairwise_append.mpr ⟨h.kept, List.pairwise_singleton .., fun hb' hm _ _ ht =>
              absurd ht (hnone hb' hm)⟩
            last := fun hb' hm ht => by
              rcases List.mem_append.mp hm with hm | hm
              · exact absurd ht (hnone hb' hm)
              · rw [List.mem_singleton.mp hm] at ht
                exact absurd ht hhb
            idle := fun he => (h.idle he).imp_right fun ⟨_, ht⟩ => by
              rw [hfile] at ht
              cases ht
            tripping := h.tripping
            fired := h.fired }
      · exact h
  | superviseRead now =>
      simp only [DeadMansSwitch.step] at hsound ⊢
      split at hsound
      · next reason hb hidle hsup =>
          obtain ⟨hfile, -⟩ := supervise_spec hsup
          have hzero : w.fired = 0 := (h.idle hidle).resolve_right fun ⟨_, ht⟩ => by
            rw [hfile] at ht
            cases ht
          exact {
            sound := hsound
            kept := h.kept
            last := h.last
            idle := fun he => by cases he
            tripping := fun _ _ _ => hzero
            fired := fun _ he => by cases he }
      · exact h
  | onTrip completes =>
      simp only [DeadMansSwitch.step] at hsound ⊢
      cases hs : w.supervisor with
      | tripping reason hb =>
          rw [hs] at hsound
          have hzero := h.tripping reason hb hs
          cases completes with
          | true => exact {
              sound := hsound
              kept := h.kept
              last := h.last
              idle := fun he => by cases he
              tripping := fun _ _ he => by cases he
              fired := fun _ _ => congrArg (· + 1) hzero }
          | false => exact {
              sound := hsound
              kept := h.kept
              last := h.last
              idle := fun _ => Or.inl hzero
              tripping := fun _ _ he => by cases he
              fired := fun _ he => by cases he }
      | idle => exact h
      | tripped hb => exact h
  | superviseWrite =>
      simp only [DeadMansSwitch.step] at hsound ⊢
      cases hs : w.supervisor with
      | tripped hb =>
          rw [hs] at hsound
          have hhb := h.sound.stage hb hs
          exact {
            sound := hsound
            kept := List.pairwise_append.mpr ⟨h.kept, List.pairwise_singleton .., fun _ _ hb' hm _ => by
              rw [List.mem_singleton.mp hm]
              exact hhb⟩
            last := fun _ _ _ => hhb
            idle := fun _ => Or.inr ⟨h.fired hb hs, hhb⟩
            tripping := fun _ _ he => by cases he
            fired := fun _ he => by cases he }
      | idle => exact h
      | tripping reason hb => exact h

theorem held_start (file : Option Heartbeat) : Held { file } where
  sound := sound_start file
  kept := List.Pairwise.nil
  last _ hm := absurd hm List.not_mem_nil
  idle _ := Or.inl rfl
  tripping _ _ he := by cases he
  fired _ he := by cases he

theorem Held.latched (h : Held w) : Latched w := by
  refine ⟨h.kept, ?_⟩
  cases hs : w.supervisor with
  | idle => rcases h.idle hs with h0 | ⟨h1, -⟩ <;> omega
  | tripping reason hb => exact (h.tripping reason hb hs).le.trans (Nat.zero_le 1)
  | tripped hb => exact (h.fired hb hs).le

/-- A beat that was overtaken undoes the trip. -/
theorem inTime_of_kept (h : Sound w)
    (hk : (d.step w a).written.Pairwise fun hb hb' => hb.tripped = true → hb'.tripped = true) :
    InTime w a := by
  rintro rfl hbot
  obtain ⟨hb, hhb⟩ := Option.isSome_iff_exists.mp hbot
  refine Bool.eq_false_iff.mpr ?_
  intro hover
  obtain ⟨hb', hmem, htrip⟩ := h.trip hbot hover
  simp only [DeadMansSwitch.step, hhb] at hk
  have hlate := (List.pairwise_append.mp hk).2.2 hb' hmem hb List.mem_cons_self htrip
  rw [h.beat hb hhb] at hlate
  cases hlate

theorem along_of_kept (acts : List WatchAct) :
    ∀ {w : Watch}, Sound w → (acts.foldl d.step w).written.Pairwise
      (fun hb hb' => hb.tripped = true → hb'.tripped = true) → Along d.step InTime w acts := by
  induction acts with
  | nil => exact fun _ _ => trivial
  | cons a acts ih =>
      intro w h hk
      have hstep := hk.sublist (written_run acts (d.step w a)).sublist
      exact ⟨inTime_of_kept h hstep, ih h.step hk⟩

/-- The switch latches, and trips once, exactly in the schedules in which no trip is
persisted between the read and the write of a beat. -/
theorem latched_iff (d : DeadMansSwitch) (file : Option Heartbeat) (acts : List WatchAct) :
    Latched (d.run file acts) ↔ Along d.step InTime { file } acts := by
  constructor
  · exact fun h => along_of_kept acts (sound_start file) h.kept
  · intro h
    exact (h.induction (fun _ _ hw hp => hw.step hp) (held_start file)).latched

/-- A beat reads just before the supervisor does, and writes after the trip: the bot runs
on, and the next check trips again. -/
theorem beat_undoes_trip :
    ¬ Latched ((DeadMansSwitch.mk 30 (by decide +kernel)).run (some ⟨0, 1, false, ""⟩)
      [.beatRead 31, .superviseRead 31, .onTrip true, .superviseWrite, .beatWrite,
        .superviseRead 100, .onTrip true, .superviseWrite]) := by
  decide +kernel

end DeadMansSwitch

end TreasuryForge
