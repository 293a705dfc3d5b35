/-
# `Live.DoubleEntry` — no entry on top of an entry

Nothing looks at the account before an ENTER is submitted: that a coin is entered
once rests on its paper book alone.  The book does not survive a restart, and goes
flat at an EXIT whether the position was closed or not.  `no_double_entry` says that no
ENTER is submitted on an open exposure, and that no exposure exceeds its entry, when
the process dies only while the account is flat, every EXIT of an exposed coin gets
through and leaves nothing, and a submission lands at most one order.
-/
import TreasuryForge.Live.Exits

namespace TreasuryForge.Autonomous

open Resume Protocol Orders

/-- An EXIT of a coin that the account still has something of is being followed. -/
def World.Leaving (w : World) : Prop :=
  w.pass.exits = true ∧ w.pass.closes = false ∧ ¬ (w.exposure w.pass.coin).Flat

instance (w : World) : Decidable w.Leaving := by unfold World.Leaving; infer_instance

def Op.asksPositions : Op → Bool
  | .positions => true
  | _ => false

/-- What a close left. -/
def Answer.left : Answer → Option ℚ
  | .closed left _ => some left
  | _ => none

/-- What an entry landed. -/
def Answer.landed : Answer → Option (List (ℚ × ℚ))
  | .entered _ landed _ => some landed
  | _ => none

/-- No part of an entry is in flight when the position is looked up, and the close
leaves nothing. -/
def World.Clean (w : World) (op : Op) (a : Answer) : Prop :=
  (op.asksPositions = true → (w.exposure w.pass.coin).working = 0) ∧ ∀ left ∈ a.left, left = 0

/-- A submission of an entry lands at most one order. -/
def Answer.Single (a : Answer) : Prop := ∀ landed ∈ a.landed, landed.length ≤ 1

instance (w : World) (op : Op) (a : Answer) : Decidable (w.Clean op a) := by
  unfold World.Clean; infer_instance

instance (a : Answer) : Decidable a.Single := by unfold Answer.Single; infer_instance

/-- While an EXIT of an exposed coin is followed, the gate and the committee say yes,
nothing is raised, and the close is clean; an entry lands at most one order; and the
process dies only while the account is flat. -/
def exposureGuard : Guard World Op Unit Answer Env Boot where
  answer _ w op a :=
    (w.Leaving → (∀ x ∈ w.exec op a, op.passed x.1 = true) ∧ w.Clean op a) ∧ a.Single
  crash w _ := ∀ p ∈ w.account.items, p.2.Flat

instance : exposureGuard.Checked where
  call _ _ := isTrue trivial
  answer _ _ _ _ := by unfold exposureGuard; infer_instance
  env _ _ _ := isTrue trivial
  crash _ _ := by unfold exposureGuard; infer_instance

/-! ## The invariant -/

/-- The coin that is being entered. -/
def Turn.entering : Turn → Option String
  | .following coin .enter | .ticked coin _ | .approved coin _ _ => some coin
  | _ => none

/-- No ENTER was submitted on an open exposure. -/
def World.Alone (w : World) : Prop := ∀ s ∈ w.sent, s.reduceOnly = false → s.before.Flat

/-- No exposure exceeds the entry it comes from. -/
def World.Bounded (w : World) : Prop :=
  ∀ c, (w.exposure c).held + (w.exposure c).working ≤ (w.exposure c).size

/-- A coin the account has something of is in position in its book, unless its exit is
under way. -/
structure Tracked (t : Turn) (w : World) : Prop where
  alone : w.Alone
  bounded : w.Bounded
  booked : ∀ c, t.exiting ≠ some c → (w.exposure c).Flat ∨ (w.books c).inPos = true
  entering : ∀ c, t.entering = some c → (w.exposure c).Flat ∧ (w.books c).inPos = true
  closing : ∀ c, t = .closing c → ¬ (w.exposure c).Flat → (w.exposure c).working = 0

variable {w w' : World} {a : Answer} {t t' : Turn} {op : Op} {r : Ret op} {coin : String}

theorem leaving_of_exiting (h : Base t w) (ht : t.exiting = some coin)
    (hx : ¬ (w.exposure coin).Flat) : w.Leaving := by
  obtain ⟨action, hexit, hp⟩ := h.of_exiting ht
  unfold World.Leaving
  rw [hp]
  exact ⟨hexit, rfl, hx⟩

theorem working_of_clean (h : Base t w) (ht : t.exiting = some coin)
    (hc : w.Clean .positions a) : (w.exposure coin).working = 0 := by
  obtain ⟨action, _, hp⟩ := h.of_exiting ht
  have hw : (w.exposure w.pass.coin).working = 0 := hc.1 rfl
  rwa [hp] at hw

/-! ## The invariant is kept -/

theorem Tracked.idle (ha : w.Alone) (hb : w.Bounded)
    (hbooked : ∀ c, (w.exposure c).Flat ∨ (w.books c).inPos = true) : Tracked .idle w where
  alone := ha
  bounded := hb
  booked c _ := hbooked c
  entering c e := by cases e
  closing c e := by cases e

/-- The runner may stop following once the coin that exits is flat. -/
theorem Tracked.leave (h : Tracked t w) (hno : ∀ c, t.exiting = some c → (w.exposure c).Flat) :
    Tracked .idle w := by
  refine .idle h.alone h.bounded ?_
  intro c
  by_cases ht : t.exiting = some c
  · exact Or.inl (hno c ht)
  · exact h.booked c ht

/-- Away from an exit, the runner may go on to a turn that enters nothing new. -/
theorem Tracked.go (h : Tracked t w) (ht : t.exiting = none)
    (he : ∀ c, t'.entering = some c → t.entering = some c) (hc : ∀ c, t' ≠ .closing c) :
    Tracked t' w where
  alone := h.alone
  bounded := h.bounded
  booked c _ := h.booked c fun e => Turn.not_exiting ht e
  entering c e := h.entering c (he c e)
  closing c e := absurd e (hc c)

/-- What a step of the program that submits nothing leaves. -/
theorem Tracked.congr (h : Tracked t w) (hsent : w'.sent = w.sent) (hbooks : w'.books = w.books)
    (hx : ∀ c, w'.exposure c = w.exposure c) : Tracked t w' where
  alone := by
    unfold World.Alone
    rw [hsent]
    exact h.alone
  bounded c := by
    rw [hx]
    exact h.bounded c
  booked c ht := by
    rw [hx, hbooks]
    exact h.booked c ht
  entering c ht := by
    rw [hx, hbooks]
    exact h.entering c ht
  closing c ht hf := by
    rw [hx] at hf ⊢
    exact h.closing c ht hf

theorem Tracked.seen (h : Tracked (.observing coin) w) (hseen : Seen coin w w' t')
    (hsame : Same w w') (hbooks : ∀ c, c ≠ coin → w'.books c = w.books c) : Tracked t' w' := by
  have hsent : w'.sent = w.sent := by
    unfold World.sent
    rw [hsame.past]
    cases hseen with
    | enter _ _ hp => rw [hp]
    | exit _ _ hp => rw [hp]
    | rest _ _ hp => rw [hp]
    | failed _ hp => rw [hp]
  have hbooked : ∀ c, (w.exposure c).Flat ∨ (w.books c).inPos = true :=
    fun c => h.booked c fun e => Turn.not_exiting rfl e
  have halone : w'.Alone := by
    unfold World.Alone
    rw [hsent]
    exact h.alone
  have hbounded : w'.Bounded := by
    intro c
    rw [hsame.exposure]
    exact h.bounded c
  have others : ∀ c, c ≠ coin → (w'.exposure c).Flat ∨ (w'.books c).inPos = true := by
    intro c hc
    rw [hsame.exposure, hbooks c hc]
    exact hbooked c
  have kept : (w'.books coin).inPos = (w.books coin).inPos → Tracked .idle w' := by
    intro hpos
    refine .idle halone hbounded ?_
    intro c
    by_cases hc : c = coin
    · rw [hc, hsame.exposure, hpos]
      exact hbooked coin
    · exact others c hc
  cases hseen with
  | rest _ hpos _ => exact kept hpos
  | failed hpos _ => exact kept hpos
  | enter h₀ h₁ _ =>
      -- the book was flat, so the coin is
      have hflat : (w'.exposure coin).Flat := by
        rw [hsame.exposure]
        refine (hbooked coin).resolve_right ?_
        intro hpos
        rw [h₀] at hpos
        cases hpos
      refine ⟨halone, hbounded, ?_, ?_, fun c e => by cases e⟩
      · intro c _
        by_cases hc : c = coin
        · exact Or.inl (hc ▸ hflat)
        · exact others c hc
      · rintro c ⟨⟩
        exact ⟨hflat, h₁⟩
  | @exit action hexit _ _ =>
      have hne := ne_enter_of_isExit hexit
      have ht : (Turn.following coin action).exiting = some coin := if_neg hne
      refine ⟨halone, hbounded, ?_, ?_, fun c e => by cases e⟩
      · intro c hc
        refine others c fun e => hc ?_
        rw [ht, e]
      · intro c hc
        cases action with
        | enter => exact absurd rfl hne
        | _ => cases hc

/-- A single order is no larger than its entry. -/
theorem Possible.total {size : ℚ} {landed : List (ℚ × ℚ)} {result : Except Raised Outcome}
    (h : Possible size landed result) (hone : landed.length ≤ 1) :
    (landed.map Prod.fst).sum + (landed.map Prod.snd).sum ≤ size := by
  match landed with
  | [] => simpa using h.2.1
  | [p] => simpa using (h.1 p (List.mem_singleton.mpr rfl)).2.2
  | _ :: _ :: _ => simp at hone

theorem alone_send {ro : Bool} {i : Intent} {s : Option OrderState} {x : Exposure} (h : w.Alone)
    (hnew : ro = false → (w.exposure coin).Flat) : (w.send ro i coin s x).Alone := by
  intro o ho hro
  rw [World.sent_send] at ho
  rcases List.mem_append.mp ho with ho | ho
  · exact h o ho hro
  · rw [List.mem_singleton.mp ho] at hro ⊢
    exact hnew hro

theorem bounded_send {ro : Bool} {i : Intent} {s : Option OrderState} {x : Exposure} (h : w.Bounded)
    (hx : x.held + x.working ≤ x.size) : (w.send ro i coin s x).Bounded := by
  intro c
  rw [World.exposure_send]
  split
  · exact hx
  · exact h c

theorem Tracked.enter {n : ℚ} {ts : ℤ} {size : ℚ} {landed : List (ℚ × ℚ)}
    {result : Except Raised Outcome} (h : Tracked (.approved coin n ts) w)
    (hposs : Possible size landed result) (hone : landed.length ≤ 1) :
    Tracked .idle (w.send false (entryIntent coin n) coin (stateOf result)
      ⟨(w.exposure coin).held + (landed.map Prod.fst).sum,
        (w.exposure coin).working + (landed.map Prod.snd).sum, size⟩) := by
  obtain ⟨hflat, hpos⟩ := h.entering coin rfl
  refine .idle (alone_send h.alone fun _ => hflat) (bounded_send h.bounded ?_) fun c => ?_
  · rw [hflat.1, hflat.2, zero_add, zero_add]
    exact hposs.total hone
  · rw [World.exposure_send]
    split
    · next hc =>
        rw [hc]
        exact Or.inr hpos
    · exact h.booked c fun e => Turn.not_exiting rfl e

theorem Tracked.close {i : Intent} {s : Option OrderState} {left : ℚ}
    (h : Tracked (.closing coin) w) (hl : 0 ≤ left) (hle : left ≤ (w.exposure coin).held)
    (hclean : ¬ (w.exposure coin).Flat → left = 0) :
    Tracked .idle (w.send true i coin s { w.exposure coin with held := left }) := by
  refine .idle (alone_send h.alone fun e => by cases e) (bounded_send h.bounded ?_) fun c => ?_
  · exact (add_le_add_left hle _).trans (h.bounded coin)
  · rw [World.exposure_send]
    split
    · -- the coin that exits is flat now
      refine Or.inl ?_
      by_cases hf : (w.exposure coin).Flat
      · exact ⟨le_antisymm (hle.trans_eq hf.1) hl, hf.2⟩
      · exact ⟨hclean hf, h.closing coin rfl hf⟩
    · next hc =>
        refine h.booked c fun e => hc ?_
        cases e
        rfl

theorem Tracked.step (hb : Base t w) (h : Tracked t w)
    (hg : w.Leaving → op.passed r = true ∧ w.Clean op a) (hone : a.Single)
    (hs : Step w a t op r t' w') : Tracked t' w' := by
  -- an exit that is stopped is of a flat coin
  have stopped : op.passed r = false → ∀ c, t.exiting = some c → (w.exposure c).Flat := by
    intro hp c ht
    by_contra hf
    rw [(hg (leaving_of_exiting hb ht hf)).1] at hp
    cases hp
  cases hs with
  | stay hq => exact h.congr hq.sent hq.books hq.toSame.exposure
  | stop hp hq => exact (h.leave (stopped hp)).congr hq.sent hq.books hq.toSame.exposure
  | @turn _ _ coin _ _ _ ht ht' =>
      have hidle : Tracked .idle (w.begin coin) :=
        (h.leave fun _ => Turn.not_exiting ht).congr World.sent_begin rfl fun _ => rfl
      rcases ht' with rfl | rfl
      · refine hidle.go rfl ?_ ?_
        · intro c e
          cases e
        · intro c e
          cases e
      · exact hidle
  | seen hseen hsame hbooks => exact h.seen hseen hsame hbooks
  | tick =>
      refine Tracked.congr (h.go rfl (fun _ e => e) ?_) rfl rfl fun _ => rfl
      intro c e
      cases e
  | approve _ _ _ =>
      refine Tracked.congr (h.go rfl (fun _ e => e) ?_) rfl rfl fun _ => rfl
      intro c e
      cases e
  | deny _ => exact (h.leave fun _ => Turn.not_exiting rfl).congr rfl rfl fun _ => rfl
  | enter hposs => exact h.enter hposs (hone _ rfl)
  | @found _ coin action _ ha =>
      have ht : (Turn.following coin action).exiting = some coin := if_neg ha
      refine ⟨h.alone, h.bounded, ?_, ?_, ?_⟩
      · intro c hc
        exact h.booked c (by rwa [ht])
      · intro c e
        cases e
      · rintro c ⟨⟩ hf
        exact working_of_clean hb ht (hg (leaving_of_exiting hb ht hf)).2
  | @missing _ coin action _ ha hh =>
      have ht : (Turn.following coin action).exiting = some coin := if_neg ha
      refine h.leave ?_
      intro c hc
      rw [ht] at hc
      cases hc
      by_contra hf
      have hw := working_of_clean hb ht (hg (leaving_of_exiting hb ht hf)).2
      exact hf ⟨le_antisymm (not_lt.mp hh) (hb.nonneg coin).1, hw⟩
  | close hl hle => exact h.close hl hle fun hf => (hg (leaving_of_exiting hb rfl hf)).2.2 _ rfl

theorem Tracked.env {e : Env} (h : Tracked t w) (he : w.env e = some w') : Tracked t w' := by
  obtain ⟨coin, y, hy, rfl⟩ := World.env_eq_some he
  have hflat : ∀ c, (w.exposure c).Flat → ((w.setExposure coin y).exposure c).Flat := by
    intro c hc
    rw [World.exposure_setExposure]
    split
    · next he =>
        rw [he] at hc
        exact hy.flat hc
    · exact hc
  refine ⟨h.alone, ?_, ?_, ?_, ?_⟩
  · intro c
    rw [World.exposure_setExposure]
    split
    · rw [hy.size]
      exact hy.total.trans (h.bounded coin)
    · exact h.bounded c
  · intro c ht
    exact (h.booked c ht).imp_left (hflat c)
  · intro c ht
    exact (h.entering c ht).imp_left (hflat c)
  · intro c ht hf
    have hf₀ : ¬ (w.exposure c).Flat := fun hx => hf (hflat c hx)
    have hw := h.closing c ht hf₀
    rw [World.exposure_setExposure]
    split
    · next he =>
        rw [he] at hw
        exact le_antisymm (hy.less.trans_eq hw) hy.working
    · exact hw

/-- A restart with a flat account has nothing to track. -/
theorem Tracked.arm {b : Boot} (h : Tracked t w) (hflat : ∀ p ∈ w.account.items, p.2.Flat) :
    Tracked .idle (w.arm b) := by
  refine .idle ?_ h.bounded fun c => Or.inl (World.flat_of_all hflat c)
  have hsent : (w.arm b).sent = w.sent := by simp [World.sent, World.arm]
  unfold World.Alone
  rw [hsent]
  exact h.alone

theorem tracked_cert {w₀ : World} (hb : Base .idle w₀) (h : Tracked .idle w₀) :
    Host.Cert loop exposureGuard (fun _ => protocol) (fun _ => .idle) (fun _ => Ends) w₀
      (fun w => Base .idle w ∧ Tracked .idle w) (fun _ t _ w => Base t w ∧ Tracked t w) where
  keeps _ := cycle_keeps
  init := ⟨hb, h⟩
  enter h _ _ := h
  answer h hal hg hx _ :=
    let hs := step_of_answer hal hx
    ⟨h.1.step hs, h.2.step h.1 (fun hl => ⟨(hg.1 hl).1 _ hx, (hg.1 hl).2⟩) hg.2 hs⟩
  finish := by
    rintro w _ t r ⟨hbase, h⟩ ht
    exact ⟨⟨trivial, hbase.nonneg⟩,
      (h.leave fun _ => Turn.not_exiting ht).congr World.sent_begin rfl fun _ => rfl⟩
  envIdle h _ he := ⟨h.1.env he, h.2.env he⟩
  envBusy h _ _ he := ⟨h.1.env he, h.2.env he⟩
  crashIdle h hg hw := by
    cases hw
    exact ⟨⟨trivial, h.1.nonneg⟩, h.2.arm hg⟩
  crashBusy h hg hw := by
    cases hw
    exact ⟨⟨trivial, h.1.nonneg⟩, h.2.arm hg⟩

/-- In a run that meets the condition, no ENTER is submitted on top of an open
exposure of its coin, and no exposure exceeds the entry it comes from. -/
theorem no_double_entry {b : Boot} {log : List PolicyEngine.Snapshot}
    {journals : String → List ScalpEvent} {cf : Config World Op Ret Raised Unit Unit}
    (hc : loop.Reach exposureGuard (start b log journals) cf) :
    cf.world.Alone ∧ cf.world.Bounded := by
  have h₀ : Tracked .idle (start b log journals) :=
    .idle (fun _ hs => absurd hs List.not_mem_nil) (fun _ => (add_zero (0 : ℚ)).le)
      fun _ => Or.inl ⟨rfl, rfl⟩
  exact (tracked_cert (base_start b log journals) h₀).always (R := fun w => w.Alone ∧ w.Bounded)
    (fun _ h => ⟨h.2.alone, h.2.bounded⟩) (fun _ _ _ _ h => ⟨h.2.alone, h.2.bounded⟩) hc

/-- In and out, and, after a restart, in again. -/
theorem no_double_entry_restart : ∃ cf, loop.Reach exposureGuard (start oneCoin [] fun _ => []) cf ∧
    cf.world.sent.map Sent.reduceOnly = [false, true, false] ∧
    cf.world.Alone ∧ cf.world.Bounded := by
  obtain ⟨cf, hc, ht⟩ := loop.reach_of_run exposureGuard (start oneCoin [] fun _ => [])
    (intoPosition 1 ++ passOn 4 90 90 ([.done, .done] ++ gatePassed ++ closeOf 4) ++
      .crash oneCoin :: intoPosition 5)
    (fun cf => cf.world.sent.map Sent.reduceOnly = [false, true, false]) (by decide +kernel)
  exact ⟨cf, hc, by simpa using ht, no_double_entry hc⟩

instance (w : World) : Decidable w.Alone := by unfold World.Alone; infer_instance

/-- The process dies with the position open, and the fresh book enters again three seconds later,
under another id. -/
theorem entered_again_after_crash :
    ∃ cf, loop.Reach .any (start oneCoin [] fun _ => []) cf ∧ ¬ cf.world.Alone := by
  obtain ⟨cf, hc, ht⟩ := loop.reach_of_run .any (start oneCoin [] fun _ => [])
    (intoPosition 1 ++ .crash oneCoin :: intoPosition 4) (fun cf => ¬ cf.world.Alone)
    (by decide +kernel)
  exact ⟨cf, hc, by simpa using ht⟩

end TreasuryForge.Autonomous
