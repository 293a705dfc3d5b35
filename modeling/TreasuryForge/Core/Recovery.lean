/-
# `Core.Recovery` — the ledger and the checkpoint after a crash

A settlement writes twice: the line of its fill, then the checkpoint.  When a process
is killed between the two, the fill is in the ledger and in no checkpoint, and nothing
replays the ledger; every process after that runs on a wallet and on windows that do
not know of it.  `Life.accounted` says that this is the only way: if no process on the
directory is killed there, a restart finds a wallet and windows that account for each
line of the ledger exactly once.

A snapshot keeps the quote under the key `quote`, beside the positions, so that no
symbol may have that name.
-/
import TreasuryForge.Base.Window
import TreasuryForge.Core.Crash

namespace TreasuryForge

open Window

/-! ## Wallets up to the order of their positions -/

namespace SimWallet

/-- The same balances. -/
structure Same (w w' : SimWallet) : Prop where
  quote : w.quote = w'.quote
  positions : ∀ s, w.positions.get? s = w'.positions.get? s

theorem Same.refl (w : SimWallet) : w.Same w := ⟨rfl, fun _ => rfl⟩

theorem Same.trans {w w' w'' : SimWallet} (h : w.Same w') (h' : w'.Same w'') : w.Same w'' :=
  ⟨h.quote.trans h'.quote, fun s => (h.positions s).trans (h'.positions s)⟩

/-- A fill does the same to the same balances. -/
theorem Same.applyFill {w w' v : SimWallet} {f : Fill} (h : w.Same w') (hf : w.applyFill f = .ok v) :
    ∃ v', w'.applyFill f = .ok v' ∧ v.Same v' := by
  have hbase : ∀ s, w.baseBalance s = w'.baseBalance s := fun s => by
    simp only [baseBalance, Dict.getD, h.positions]
  obtain ⟨hq, hb, rfl⟩ := applyFill_ok.mp hf
  rw [h.quote] at hq
  rw [hbase] at hb
  refine ⟨_, applyFill_ok.mpr ⟨hq, hb, rfl⟩, by rw [h.quote], ?_⟩
  intro s
  simp only [Dict.get?_set, hbase, h.positions]

/-- The fills of a ledger, one after the other. -/
def replay (w : SimWallet) (fills : List Fill) : Except InsufficientFunds SimWallet :=
  fills.foldlM applyFill w

theorem replay_snoc {w v v' : SimWallet} {fills : List Fill} {f : Fill}
    (h : w.replay fills = .ok v) (hf : v.applyFill f = .ok v') :
    w.replay (fills ++ [f]) = .ok v' := by
  simp only [replay] at h
  simp only [replay, List.foldlM_append, h, List.foldlM_cons, List.foldlM_nil]
  show (v.applyFill f >>= fun v => pure v) = .ok v'
  rw [hf]
  rfl

theorem get?_snapshot (w : SimWallet) (s : String) :
    w.snapshot.get? s = (w.positions.get? s).or (if s = "quote" then some w.quote else none) := by
  rw [snapshot, Dict.get?_foldl_set w.positions.nodup, Dict.get?_set, Dict.get?_empty]
  rfl

/-- What a checkpoint says of a wallet is read back, if no position is called `quote`. -/
theorem fromSnapshot_snapshot {w : SimWallet} (h : w.positions.get? "quote" = none) :
    ∃ w', fromSnapshot (w.snapshot.sortKeys (· ≤ ·)) = some w' ∧ w'.Same w := by
  have hq : (w.snapshot.sortKeys (· ≤ ·)).get? "quote" = some w.quote := by
    rw [Dict.get?_sortKeys, get?_snapshot, h]
    rfl
  let positions := (w.snapshot.sortKeys (· ≤ ·)).filterKeys (· ≠ "quote")
  have hread : fromSnapshot (w.snapshot.sortKeys (· ≤ ·)) = some ⟨w.quote, positions⟩ := by
    rw [fromSnapshot, hq]
    rfl
  refine ⟨_, hread, rfl, ?_⟩
  intro s
  simp only [positions, Dict.get?_filterKeys, Dict.get?_sortKeys, get?_snapshot]
  by_cases hs : s = "quote"
  · rw [hs, h]
    rfl
  · simp [hs]

end SimWallet

/-! ## Accounts -/

/-- A time that had left the window at one of these times. -/
def Expired (W : ℤ) (seen : List ℤ) (ts : ℤ) : Prop := ∃ now ∈ seen, ts ≤ now - W

/-- Wallet and windows account for each of these fills exactly once. -/
structure Accounts (cfg : PolicyConfig) (w₀ : SimWallet) (fills : List Fill) (seen : List ℤ)
    (e : PolicyEngine) (w : SimWallet) : Prop where
  wallet : ∃ v, w₀.replay fills = .ok v ∧ w.Same v
  recent : Remains (Expired cfg.windowSteps seen) e.recentTs (fills.map Fill.ts)
  spend : Remains (fun p => Expired cfg.spendWindow seen p.1) e.spend
    (fills.map fun f => (f.ts, f.baseAmount * f.price))

namespace Accounts

variable {cfg : PolicyConfig} {w₀ w w' : SimWallet} {fills : List Fill} {seen : List ℤ}
  {e : PolicyEngine}

theorem fill {f : Fill} (h : Accounts cfg w₀ fills seen e w) (hf : w.applyFill f = .ok w') :
    Accounts cfg w₀ (fills ++ [f]) seen (e.registerFill f.ts (f.baseAmount * f.price)) w' where
  wallet := by
    obtain ⟨v, hv, hs⟩ := h.wallet
    obtain ⟨v', hv', hs'⟩ := hs.applyFill hf
    exact ⟨v', SimWallet.replay_snoc hv hv', hs'⟩
  recent := by
    rw [List.map_append]
    exact h.recent.push f.ts
  spend := by
    rw [List.map_append]
    exact h.spend.push (f.ts, f.baseAmount * f.price)

/-- What a ruling prunes has expired. -/
theorem rule {i : Intent} {t : MarketTick} (h : Accounts cfg w₀ fills seen e w) (hc : e.config = cfg)
    (ht : t.ts ∈ seen) : Accounts cfg w₀ fills seen (e.evaluate i t w none).2 w := by
  have haged : e.Aged t.ts (e.evaluate i t w none).2 := PolicyEngine.evaluate_aged
  refine ⟨h.wallet, ?_, ?_⟩
  · rcases haged.recent with he | he
    · rw [he]
      exact h.recent
    · rw [he]
      exact h.recent.dropWhile fun ts hts => ⟨t.ts, ht, hc ▸ of_decide_eq_true hts⟩
  · rcases haged.spend with he | he
    · rw [he]
      exact h.spend
    · rw [he]
      exact h.spend.dropWhile fun p hp => ⟨t.ts, ht, hc ▸ of_decide_eq_true hp⟩

theorem congr (h : Accounts cfg w₀ fills seen e w) (hw : w'.Same w) :
    Accounts cfg w₀ fills seen e w' := by
  obtain ⟨v, hv, hs⟩ := h.wallet
  exact ⟨⟨v, hv, hw.trans hs⟩, h.recent, h.spend⟩

theorem mono {seen' : List ℤ} (h : Accounts cfg w₀ fills seen e w) (hs : seen ⊆ seen') :
    Accounts cfg w₀ fills seen' e w := by
  have hold : ∀ {W ts}, Expired W seen ts → Expired W seen' ts := fun ⟨now, hnow, hle⟩ =>
    ⟨now, hs hnow, hle⟩
  exact ⟨h.wallet, h.recent.mono fun _ => hold, h.spend.mono fun _ => hold⟩

end Accounts

/-- The ledger has a line for each of these fills, and a restart finds a wallet and
windows that account for each once. -/
structure Filed (cfg : PolicyConfig) (w₀ : SimWallet) (fills : List Fill) (seen : List ℤ) (d : Disk) :
    Prop where
  ledger : d.ledger = fills.map Fill.event
  restores : ∃ w, d.restoredWallet w₀ = some w ∧
    Accounts cfg w₀ fills seen (d.restoredPolicy cfg) w

namespace Filed

variable {cfg : PolicyConfig} {w₀ w : SimWallet} {fills : List Fill} {seen : List ℤ}
  {e : PolicyEngine} {d : Disk}

/-- An empty directory, and the wallet a first process is given. -/
theorem new (seen : List ℤ) : Filed cfg w₀ [] seen {} :=
  ⟨rfl, w₀, rfl, ⟨w₀, rfl, .refl w₀⟩, remains_nil, remains_nil⟩

/-- A checkpoint puts on disk what memory accounts for. -/
theorem checkpoint (hl : d.ledger = fills.map Fill.event) (h : Accounts cfg w₀ fills seen e w)
    (hq : w.positions.get? "quote" = none) (ts : ℤ) :
    Filed cfg w₀ fills seen (d.write (.checkpoint ⟨ts, e.snapshot, w.snapshot⟩)) := by
  obtain ⟨w', hw', hs⟩ := SimWallet.fromSnapshot_snapshot hq
  obtain ⟨hwallet, hrecent, hspend⟩ := h.congr hs
  exact ⟨hl, w', hw', hwallet, hrecent, hspend⟩

theorem mono {seen' : List ℤ} (h : Filed cfg w₀ fills seen d) (hs : seen ⊆ seen') :
    Filed cfg w₀ fills seen' d := by
  obtain ⟨w, hw, ha⟩ := h.restores
  exact ⟨h.ledger, w, hw, ha.mono hs⟩

end Filed

namespace Runner

variable {A : Type} {r : Runner A Unit} {x : SimExecutor} {cfg : PolicyConfig} {w₀ : SimWallet}
  {p : Past} {seen : List ℤ} {s s' c : RunState A Unit} {t : MarketTick}

/-! ## Between the ticks -/

/-- What holds of a directory and of the process that has it, whenever a tick begins. -/
structure Booked (cfg : PolicyConfig) (w₀ : SimWallet) (p : Past) (seen : List ℤ)
    (s : RunState A Unit) : Prop where
  accounts : Accounts cfg w₀ (p.fills ++ s.report.fills) seen s.policy s.wallet
  filed : Filed cfg w₀ (p.fills ++ s.report.fills) seen (p.disk.after s.writes)
  events : s.writes.countP Write.isEvent = s.report.fills.length
  config : s.policy.config = cfg
  plain : s.wallet.positions.get? "quote" = none
  pending : ∀ i d, s.pending = some (i, d) → i.symbol ≠ "quote"

/-- What a half of a tick can write: nothing, a checkpoint, or the two writes of a fill. -/
inductive Chunk : List Write → Prop
  | nothing : Chunk []
  | checkpoint (c : Checkpoint) : Chunk [.checkpoint c]
  | fill (f : Fill) (c : Checkpoint) :
      Chunk [.event f.ts f.side.value f.baseAmount f.price f.fee, .checkpoint c]

/-- `s'` follows on `s` with such a chunk. -/
def Follows (s s' : RunState A Unit) : Prop :=
  (∃ ws, s'.writes = s.writes ++ ws ∧ Chunk ws) ∧
    ∃ fs, s'.report.fills = s.report.fills ++ fs

theorem Booked.settle (hx : r.executor = x.toExecutor) (hj : r.journaled = true) {i : Intent}
    (h : Booked cfg w₀ p seen s) (hi : i.symbol ≠ "quote") :
    Booked cfg w₀ p seen (r.settle s i t) ∧ Follows s (r.settle s i t) := by
  rcases settle_cases s i t with ⟨f, w, u, rep, ps, he, hs, hf⟩ |
    ⟨e, w, u, rep, ps, he, hs, hf⟩
  · obtain ⟨rfl, hw⟩ := executes hx he
    have hacc := h.accounts.fill hw
    have hsym : (x.fill i t).symbol ≠ "quote" := hi
    have hplain : w.positions.get? "quote" = none := by
      obtain ⟨-, -, rfl⟩ := SimWallet.applyFill_ok.mp hw
      exact (Dict.get?_set_of_ne _ _ (Ne.symm hsym)).trans h.plain
    rw [List.append_assoc] at hacc
    rw [hs]
    simp only [hj, if_true]
    refine ⟨⟨?_, ?_, ?_, h.config, hplain, h.pending⟩, ⟨_, rfl, .fill _ _⟩, [x.fill i t], hf⟩
    · rw [hf]
      exact hacc
    · rw [hf, Disk.after_append]
      refine Filed.checkpoint (d := (p.disk.after s.writes).write _) ?_ hacc hplain _
      simp [Disk.write, h.filed.ledger, Fill.event]
    · rw [hf, List.countP_append, h.events, List.length_append]
      rfl
  · obtain rfl := aborts hx he
    rw [hs]
    refine ⟨⟨?_, ?_, ?_, h.config, h.plain, h.pending⟩, ⟨[], (List.append_nil _).symm, .nothing⟩,
      [], hf.trans (List.append_nil _).symm⟩
    · rw [hf]
      exact h.accounts
    · rw [hf]
      exact h.filed
    · rw [hf]
      exact h.events

theorem Follows.refl (s : RunState A Unit) : Follows s s :=
  ⟨⟨[], (List.append_nil _).symm, .nothing⟩, [], (List.append_nil _).symm⟩

theorem Booked.asking (hx : r.executor = x.toExecutor) (hj : r.journaled = true)
    (h : Booked cfg w₀ p seen s) :
    Booked cfg w₀ p seen (r.asking s t) ∧ Follows s (r.asking s t) := by
  have hopen : Booked cfg w₀ p seen (opened s t) ∧ Follows s (opened s t) := by
    unfold opened
    split
    · exact ⟨⟨h.accounts, h.filed, h.events, h.config, h.plain, h.pending⟩, .refl s⟩
    · exact ⟨h, .refl s⟩
  obtain ⟨ho, hfo⟩ := hopen
  have hsame : (opened s t).writes = s.writes ∧ (opened s t).report.fills = s.report.fills := by
    unfold opened
    split <;> exact ⟨rfl, rfl⟩
  unfold Runner.asking settlePending
  cases hp : (opened s t).pending with
  | none => exact ⟨ho, hfo⟩
  | some pair =>
      obtain ⟨hb, hf⟩ := ho.settle (t := t) hx hj (ho.pending _ _ hp)
      refine ⟨⟨hb.accounts, hb.filed, hb.events, hb.config, hb.plain, fun _ _ he => by cases he⟩, ?_⟩
      rw [Follows, hsame.1, hsame.2] at hf
      exact hf

theorem Booked.dispose (hx : r.executor = x.toExecutor) (hj : r.journaled = true)
    (hq : "quote" ∉ cfg.allowedSymbols) (ht : t.ts ∈ seen) {i : Intent}
    (h : Booked cfg w₀ p seen s) :
    Booked cfg w₀ p seen (r.dispose s i t) ∧ Follows s (r.dispose s i t) := by
  have hacc := h.accounts.rule (i := i) h.config ht
  have hcfg : (s.policy.evaluate i t s.wallet none).2.config = cfg :=
    PolicyEngine.evaluate_aged.config.trans h.config
  have hsym : (s.policy.evaluate i t s.wallet none).1.allowed = true → i.symbol ≠ "quote" := by
    intro ha he
    have hmem := (PolicyEngine.evaluate_allowed ha).symbol
    rw [he, h.config] at hmem
    exact hq hmem
  rcases dispose_cases (r := r) s i t with ⟨-, a, rep, ps, he, hf⟩ | ⟨ha, -, a, he⟩ | ⟨ha, -, a, he⟩
  · rw [he]
    have hkeep := hf.trans (List.append_nil _).symm
    cases htrip : (s.policy.evaluate i t s.wallet none).2.tripped with
    | false =>
        simp only [Bool.false_eq_true, and_false, if_false, List.append_nil]
        refine ⟨⟨?_, ?_, ?_, hcfg, h.plain, h.pending⟩,
          ⟨[], (List.append_nil _).symm, .nothing⟩, [], hkeep⟩
        · rw [hf]
          exact hacc
        · rw [hf]
          exact h.filed
        · rw [hf]
          exact h.events
    | true =>
        simp only [hj, and_self, if_true]
        refine ⟨⟨?_, ?_, ?_, hcfg, h.plain, h.pending⟩, ⟨_, rfl, .checkpoint _⟩, [], hkeep⟩
        · rw [hf]
          exact hacc
        · rw [hf, Disk.after_append]
          exact .checkpoint h.filed.ledger hacc h.plain _
        · rw [hf, List.countP_append, h.events]
          rfl
  · rw [he]
    exact Booked.settle hx hj
      ⟨hacc, h.filed, h.events, hcfg, h.plain, h.pending⟩ (hsym ha)
  · rw [he]
    refine ⟨⟨hacc, h.filed, h.events, hcfg, h.plain, fun j d hd => ?_⟩,
      ⟨[], (List.append_nil _).symm, .nothing⟩, [], (List.append_nil _).symm⟩
    cases hd
    exact hsym ha

/-- The second half of a tick. -/
theorem Booked.asked (hx : r.executor = x.toExecutor) (hj : r.journaled = true)
    (hq : "quote" ∉ cfg.allowedSymbols) (ht : t.ts ∈ seen)
    (h : Booked cfg w₀ p seen (r.asking s t)) :
    Booked cfg w₀ p seen (r.onTick s t) ∧ Follows (r.asking s t) (r.onTick s t) := by
  rcases hd : r.agent.decide (r.asking s t).agent t (r.asking s t).wallet with ⟨_ | i, a⟩
  · rw [onTick_hold hd]
    exact ⟨⟨h.accounts, h.filed, h.events, h.config, h.plain, h.pending⟩, .refl (r.asking s t)⟩
  · have he : r.onTick s t = r.dispose { r.asking s t with agent := a } i t := by
      simp only [Runner.asking] at hd ⊢
      simp only [Runner.onTick, hd]
    rw [he]
    exact Booked.dispose (s := { r.asking s t with agent := a }) hx hj hq ht
      ⟨h.accounts, h.filed, h.events, h.config, h.plain, h.pending⟩

theorem Booked.loop (hx : r.executor = x.toExecutor) (hj : r.journaled = true)
    (hq : "quote" ∉ cfg.allowedSymbols) {ticks : List MarketTick} (ht : ∀ t ∈ ticks, t.ts ∈ seen) :
    ∀ {s : RunState A Unit}, Booked cfg w₀ p seen s → Booked cfg w₀ p seen (r.loop s ticks) := by
  induction ticks with
  | nil => exact fun h => h
  | cons t ts ih =>
      intro s h
      exact ih (fun t' ht' => ht t' (List.mem_cons_of_mem _ ht'))
        ((h.asking hx hj).1.asked hx hj hq (ht t List.mem_cons_self)).1

/-! ## In the middle of one -/

/-- The last thing a process wrote is not the line of a fill. -/
def Whole (c : RunState A Unit) : Prop := ∀ w ∈ c.writes.getLast?, w.isEvent = false

instance (c : RunState A Unit) : Decidable (Whole c) :=
  inferInstanceAs (Decidable (∀ w ∈ c.writes.getLast?, w.isEvent = false))

/-- Of such a chunk, nothing is written or everything, unless it stopped at a line. -/
theorem Chunk.cut {ws m : List Write} (h : Chunk ws) (hm : m <+: ws)
    (hlast : ∀ w ∈ m.getLast?, w.isEvent = false) : m = [] ∨ m = ws := by
  cases h with
  | nothing => exact Or.inl (List.prefix_nil.mp hm)
  | checkpoint c =>
      cases m with
      | nil => exact Or.inl rfl
      | cons w m => exact Or.inr (hm.eq_of_length_le (by simp))
  | fill f c =>
      match m, hm with
      | [], _ => exact Or.inl rfl
      | [w], hm =>
          obtain ⟨rfl, -⟩ := List.cons_prefix_cons.mp hm
          cases hlast _ rfl
      | w :: w' :: m, hm => exact Or.inr (hm.eq_of_length_le (by simp))

/-- Between two states with their books in order, a process that is killed leaves them so. -/
theorem Booked.cut (h : Booked cfg w₀ p seen s) (h' : Booked cfg w₀ p seen s') (hf : Follows s s')
    {ws : List Write} (hle : s.writes <+: ws) (hle' : ws <+: s'.writes)
    (hlast : ∀ w ∈ ws.getLast?, w.isEvent = false) :
    Filed cfg w₀ (p.fills ++ s'.report.fills.take (ws.countP Write.isEvent)) seen
      (p.disk.after ws) := by
  obtain ⟨⟨new, hnew, hchunk⟩, fs, hfs⟩ := hf
  obtain ⟨m, rfl⟩ := hle
  rw [hnew] at hle'
  have hm : m <+: new := (List.prefix_append_right_inj _).mp hle'
  have hstop : ∀ w ∈ m.getLast?, w.isEvent = false := fun w hw => hlast w (by
    rw [List.getLast?_append, Option.mem_def.mp hw]
    rfl)
  rcases hchunk.cut hm hstop with rfl | rfl
  · rw [List.append_nil, h.events, hfs, List.take_left]
    exact h.filed
  · rw [← hnew, h'.events, List.take_length]
    exact h'.filed

theorem Booked.killed (hx : r.executor = x.toExecutor) (hj : r.journaled = true)
    (hq : "quote" ∉ cfg.allowedSymbols) (ht : t.ts ∈ seen) (h : Booked cfg w₀ p seen s)
    (hk : r.Killed s t c) (hw : Whole c) :
    Filed cfg w₀ (p.fills ++ c.recorded) seen (p.disk.after c.writes) := by
  obtain ⟨hb, hf⟩ := h.asking (t := t) hx hj
  cases hk with
  | settling hle hle' => exact h.cut hb hf hle hle' hw
  | ruling hd =>
      exact hb.cut hb (.refl _) (List.prefix_refl _) (List.prefix_refl _) hw
  | finishing hle hle' =>
      obtain ⟨hb', hf'⟩ := hb.asked hx hj hq ht
      exact hb.cut hb' hf' hle hle' hw

/-! ## Over crashes and restarts -/

/-- A new process has the wallet and the windows the directory restores. -/
theorem boot_booked {a : A} {u : Unit} (h : Filed cfg w₀ p.fills seen p.disk)
    (hw : w₀.positions.get? "quote" = none) (hs : boot cfg w₀ a u p.disk = some s) :
    Booked cfg w₀ p seen s := by
  obtain ⟨w, hread, hacc⟩ := h.restores
  obtain ⟨w', hread', rfl⟩ := Option.map_eq_some_iff.mp hs
  obtain rfl : w = w' := Option.some.inj (hread.symm.trans hread')
  have hplain : w.positions.get? "quote" = none := by
    unfold Disk.restoredWallet at hread
    split at hread
    · cases hread
      exact hw
    · obtain ⟨q, -, rfl⟩ := Option.map_eq_some_iff.mp hread
      rw [Dict.get?_filterKeys]
      rfl
  have hcfg : (p.disk.restoredPolicy cfg).config = cfg := by
    unfold Disk.restoredPolicy
    split <;> rfl
  rw [← List.append_nil p.fills] at h hacc
  exact ⟨hacc, h, rfl, hcfg, hplain, fun _ _ he => by cases he⟩

/-- On a directory on which no process was killed between the line of a fill and its
checkpoint, a restart accounts for each line exactly once. -/
theorem Life.accounted (hx : r.executor = x.toExecutor) (hj : r.journaled = true)
    (hq : "quote" ∉ cfg.allowedSymbols) (hw : w₀.positions.get? "quote" = none)
    (h : r.Life cfg w₀ Whole p) : Filed cfg w₀ p.fills p.seen p.disk := by
  induction h with
  | new => exact .new _
  | @kill p a u s c ticks t _ hs hk hwhole ih =>
      have hsub : p.seen ⊆ p.seen ++ (ticks ++ [t]).map MarketTick.ts := List.subset_append_left ..
      have hall : ∀ t' ∈ ticks ++ [t], t'.ts ∈ p.seen ++ (ticks ++ [t]).map MarketTick.ts :=
        fun t' ht' => List.mem_append_right _ (List.mem_map_of_mem ht')
      have hboot := boot_booked (ih.mono hsub) hw hs
      have hloop := hboot.loop hx hj hq fun t' ht' => hall t' (List.mem_append_left _ ht')
      exact hloop.killed hx hj hq (hall t (List.mem_append_right _ List.mem_cons_self)) hk hwhole

/-- The purchase, killed when its tick is over. -/
theorem accounted_filled : ∃ p, journaling.Life aState.policy.config aState.wallet Whole p ∧
    p.fills.length = 1 ∧ Filed aState.policy.config aState.wallet p.fills p.seen p.disk := by
  have hk := onTick_killed (r := journaling) rfl (journaling.loop aState [firstTick]) secondTick
  have hwhole : Whole (journaling.onTick (journaling.loop aState [firstTick]) secondTick) := by
    decide +kernel
  have hnew : journaling.Life aState.policy.config aState.wallet Whole {} := .new
  have hlife := Life.kill (a := ()) (x := ()) hnew rfl hk hwhole
  exact ⟨_, hlife, by decide +kernel,
    Life.accounted rfl rfl (by decide +kernel) (by decide +kernel) hlife⟩

/-- The process of the purchase when it has written the line of the fill. -/
def lineWritten : RunState Unit Unit :=
  let s := journaling.asking (journaling.loop aState [firstTick]) secondTick
  { s with writes := s.writes.take 1 }

/-- The purchase, killed between its line and its checkpoint: the line is there, and the
next process has not counted the fill. -/
theorem fill_lost_between_writes :
    journaling.Killed (journaling.loop aState [firstTick]) secondTick lineWritten ∧
    let p := ({} : Past).kill [firstTick, secondTick] lineWritten
    p.disk.ledger.length = 1 ∧ ¬ Filed aState.policy.config aState.wallet p.fills p.seen p.disk := by
  have hidle : (journaling.loop aState [firstTick]).writes.length = 0 := by decide +kernel
  have hempty : (journaling.loop aState [firstTick]).writes = [] := List.length_eq_zero_iff.mp hidle
  refine ⟨.settling ?_ (List.take_prefix ..), ?_, fun h => ?_⟩
  · rw [hempty]
    exact List.nil_prefix
  · decide +kernel
  · obtain ⟨w, -, -, ⟨gone, hgone, hold⟩, -⟩ := h.restores
    have hlost : ((({} : Past).kill [firstTick, secondTick] lineWritten).disk.restoredPolicy
        aState.policy.config).recentTs = [] := by decide +kernel
    have hfill : (({} : Past).kill [firstTick, secondTick] lineWritten).fills.map Fill.ts = [1] := by
      decide +kernel
    rw [hlost, hfill, List.append_nil] at hgone
    obtain ⟨now, hnow, hle⟩ := hold 1 (hgone ▸ List.mem_cons_self)
    revert hle
    revert now
    decide +kernel

end Runner

end TreasuryForge
