/-
# `Live.Relay` — the funding relay of another host, and when it fails safe

`relay_feed.py` on a snapshot file of any content.  Missing files and texts that are no object are
empty snapshots; what is in an object is read without a look, and a text that is nested too deep
raises.  `relay_fails_safe_iff` says on which files the feed neither raises nor hands on a quote
from another time.
-/
import TreasuryForge.Base.Dynamic
import TreasuryForge.Base.JsonLimits
import TreasuryForge.Base.Loop
import Mathlib.Algebra.Order.Group.Abs

namespace TreasuryForge

namespace Relay

open JsonText Raising

abbrev Members := List (Key PyFloat × Val PyFloat)

/-- `{"ts": 0, "venues": {}}` -/
def emptySnapshot : Members :=
  [(.str (Str.of "ts"), .int 0), (.str (Str.of "venues"), .dict [])]

section Feed

variable (fl : Floats PyFloat) (limits : Limits PyFloat) (lit : Literals)

/-- A file that is not there fails as one of the file system does; bytes that are no UTF-8, texts
that are no JSON and integers that are too long are `ValueError`s, and only these are caught. -/
def loadSnapshot (file : TextFile) : Except String Members :=
  match file.failure with
  | some _ => .ok emptySnapshot
  | none =>
      match loadsWithin fl limits file.text with
      | .value (.dict items) => .ok items
      | .raised .depth => .error Limit.depth.text
      | _ => .ok emptySnapshot

/-- `int(snapshot.get("ts", 0))` -/
def timestamp (snapshot : Members) : Except String ℤ :=
  ((get? snapshot "ts").getD (.int 0)).asInt lit

/-- `snapshot.get("venues", {})` -/
def venuesOf (snapshot : Members) : Val PyFloat := (get? snapshot "venues").getD (.dict [])

/-- What a venue has for the coin, unless it is no object. -/
def valueOf (coins : Val PyFloat) (coin : String) : Val PyFloat :=
  match coins with
  | .dict items => (get? items coin).getD .none
  | _ => .none

/-- `float(value) if (fresh and value is not None) else None` -/
def quote (fresh : Bool) (value : Val PyFloat) : Except String (Option PyFloat) :=
  match fresh, value with
  | false, _ => .ok none
  | true, .none => .ok none
  | true, value => some <$> value.asFloat lit

def relayFunding (snapshot : Members) (coin : String) (now maxAge : ℤ) :
    Except String (List (Key PyFloat × Option PyFloat)) := do
  let ts ← timestamp lit snapshot
  let venues ← (venuesOf snapshot).members
  venues.mapM fun venue => do
    return (venue.1, ← quote lit (decide (now - ts ≤ maxAge)) (valueOf venue.2 coin))

end Feed

/-- The feed of this snapshot does not raise, and hands on quotes only from around now. -/
def FeedSafe (lit : Literals) (snapshot : Members) (coin : String) (now maxAge : ℤ) : Prop :=
  ∃ out, relayFunding lit snapshot coin now maxAge = .ok out ∧
    ∀ entry ∈ out, entry.2 ≠ none →
      ∃ ts, timestamp lit snapshot = .ok ts ∧ |now - ts| ≤ maxAge

/-- Neither does loading the snapshot. -/
def FailsSafe (fl : Floats PyFloat) (limits : Limits PyFloat) (lit : Literals) (file : TextFile)
    (coin : String) (now maxAge : ℤ) : Prop :=
  ∃ snapshot, loadSnapshot fl limits file = .ok snapshot ∧ FeedSafe lit snapshot coin now maxAge

/-- A snapshot that can be read, and that is not from the future if it quotes the coin. -/
def Sound (lit : Literals) (snapshot : Members) (coin : String) (now maxAge : ℤ) : Prop :=
  ∃ ts venues, timestamp lit snapshot = .ok ts ∧ venuesOf snapshot = .dict venues ∧
    (now - ts ≤ maxAge → ∀ venue ∈ venues, valueOf venue.2 coin ≠ .none →
      Ok ((valueOf venue.2 coin).asFloat lit) ∧ ts - now ≤ maxAge)

variable {lit : Literals} {snapshot : Members} {coin : String} {now maxAge : ℤ}

theorem quote_fresh {value : Val PyFloat} (h : value ≠ .none) :
    quote lit true value = some <$> value.asFloat lit := by
  cases value with
  | none => exact absurd rfl h
  | _ => rfl

theorem ok_quote_iff {fresh : Bool} {value : Val PyFloat} :
    Ok (quote lit fresh value) ↔
      (fresh = true → value ≠ .none → Ok (value.asFloat lit)) := by
  cases fresh with
  | false => exact iff_of_true (ok_pure none) fun h => by cases h
  | true =>
      by_cases hnone : value = .none
      · subst hnone
        exact iff_of_true (ok_pure none) fun _ h => absurd rfl h
      · rw [quote_fresh hnone]
        constructor
        · intro hok _ _
          obtain ⟨x, hx, -⟩ := ok_bind.mp hok
          exact ⟨x, hx⟩
        · intro hok
          obtain ⟨x, hx⟩ := hok rfl hnone
          rw [hx]
          exact ok_pure (some x)

/-- Only a fresh value that is there is handed on. -/
theorem quote_eq_some {fresh : Bool} {value : Val PyFloat} {x : PyFloat}
    (h : quote lit fresh value = .ok (some x)) : fresh = true ∧ value ≠ .none := by
  cases fresh with
  | false => cases h
  | true =>
      refine ⟨rfl, ?_⟩
      rintro rfl
      cases h

theorem quote_ne_none {value : Val PyFloat} (h : value ≠ .none) :
    quote lit true value ≠ .ok none := by
  rw [quote_fresh h]
  intro hquote
  obtain ⟨x, -, hx⟩ := Loop.bind_eq_ok.mp hquote
  cases hx

/-- The feed is safe on the sound snapshots. -/
theorem feedSafe_iff : FeedSafe lit snapshot coin now maxAge ↔
    Sound lit snapshot coin now maxAge := by
  constructor
  · rintro ⟨out, hrun, hfrom⟩
    obtain ⟨ts, hts, hrun⟩ := Loop.bind_eq_ok.mp hrun
    obtain ⟨venues, hvenues, hrun⟩ := Loop.bind_eq_ok.mp hrun
    refine ⟨ts, venues, hts, Val.members_eq_ok.mp hvenues, fun hfresh venue hvenue hvalue => ?_⟩
    obtain ⟨entry, hentry, hmade⟩ := (mapM_eq_ok hrun).2 venue hvenue
    obtain ⟨r, hr, hmade⟩ := Loop.bind_eq_ok.mp hmade
    obtain rfl := Except.ok.inj hmade
    rw [decide_eq_true hfresh] at hr
    refine ⟨ok_quote_iff.mp ⟨r, hr⟩ rfl hvalue, ?_⟩
    have hsome : r ≠ none := by
      rintro rfl
      exact quote_ne_none hvalue hr
    obtain ⟨ts', hts', hnear⟩ := hfrom _ hentry hsome
    obtain rfl := Except.ok.inj (hts.symm.trans hts')
    exact (abs_sub_le_iff.mp hnear).2
  · rintro ⟨ts, venues, hts, hvenues, hsound⟩
    have hall : Ok (venues.mapM fun venue => do
        return (venue.1, ← quote lit (decide (now - ts ≤ maxAge)) (valueOf venue.2 coin))) := by
      refine ok_mapM.mpr fun venue hvenue => ok_bind.mpr ?_
      obtain ⟨r, hr⟩ := ok_quote_iff.mpr fun hfresh hvalue =>
        (hsound (of_decide_eq_true hfresh) venue hvenue hvalue).1
      exact ⟨r, hr, ok_pure _⟩
    obtain ⟨out, hout⟩ := hall
    have hrun : relayFunding lit snapshot coin now maxAge = .ok out := by
      rw [relayFunding, hts, Val.members_eq_ok.mpr hvenues]
      exact hout
    refine ⟨out, hrun, fun entry hentry hsome => ⟨ts, hts, ?_⟩⟩
    obtain ⟨venue, hvenue, hmade⟩ := (mapM_eq_ok hout).1 entry hentry
    obtain ⟨r, hr, hmade⟩ := Loop.bind_eq_ok.mp hmade
    obtain rfl := Except.ok.inj hmade
    obtain ⟨x, rfl⟩ := Option.ne_none_iff_exists'.mp hsome
    obtain ⟨hfresh, hvalue⟩ := quote_eq_some hr
    have hfresh := of_decide_eq_true hfresh
    exact abs_sub_le_iff.mpr ⟨hfresh, (hsound hfresh venue hvenue hvalue).2⟩

theorem sound_emptySnapshot : Sound lit emptySnapshot coin now maxAge := by
  refine ⟨0, [], ?_, ?_, fun _ venue hvenue => absurd hvenue List.not_mem_nil⟩
  · rfl
  · rfl

/-- The feed fails safe on a file exactly when it is not nested too deep and holds no object, or a
sound one. -/
theorem relay_fails_safe_iff (fl : Floats PyFloat) (limits : Limits PyFloat) (lit : Literals)
    (file : TextFile) (coin : String) (now maxAge : ℤ) :
    FailsSafe fl limits lit file coin now maxAge ↔
      (file.failure = none → limits.reading file.text ≠ some .depth ∧
        ∀ items, limits.reading file.text = none → loads fl file.text = some (.dict items) →
          Sound lit items coin now maxAge) := by
  unfold FailsSafe loadSnapshot
  cases file.failure with
  | some failure =>
      refine iff_of_true ⟨_, rfl, feedSafe_iff.mpr sound_emptySnapshot⟩ ?_
      intro h
      cases h
  | none =>
      unfold loadsWithin
      cases limits.reading file.text with
      | some limit =>
          cases limit with
          | digits =>
              refine iff_of_true ⟨_, rfl, feedSafe_iff.mpr sound_emptySnapshot⟩ fun _ => ?_
              exact ⟨by decide, fun items h => by cases h⟩
          | depth =>
              refine iff_of_false ?_ fun h => (h rfl).1 rfl
              rintro ⟨snapshot, h, -⟩
              cases h
      | none =>
          constructor
          · rintro ⟨snapshot, hload, hsafe⟩ -
            refine ⟨Option.some_ne_none _ ∘ Eq.symm, fun items _ hitems => ?_⟩
            rw [hitems] at hload
            obtain rfl := Except.ok.inj hload
            exact feedSafe_iff.mp hsafe
          · intro h
            obtain ⟨-, hobject⟩ := h rfl
            cases hloads : loads fl file.text with
            | none => exact ⟨_, rfl, feedSafe_iff.mpr sound_emptySnapshot⟩
            | some v =>
                cases v with
                | dict items => exact ⟨_, rfl, feedSafe_iff.mpr (hobject items rfl hloads)⟩
                | _ => exact ⟨_, rfl, feedSafe_iff.mpr sound_emptySnapshot⟩

def wordTime : TextFile := ⟨"\x7b\"ts\": \"soon\"\x7d".toList, none⟩

def futureTime : TextFile :=
  ⟨"\x7b\"ts\": 1000000, \"venues\": \x7b\"BIN\": \x7b\"XRP\": 1\x7d\x7d\x7d".toList, none⟩

/-- A time that is a word raises, and a quote that is dated eleven days ahead counts as fresh. -/
theorem relay_fails :
    ¬ FailsSafe PyFloat.exact .none Literals.none wordTime "XRP" 0 7200 ∧
      ¬ FailsSafe PyFloat.exact .none Literals.none futureTime "XRP" 0 7200 := by
  constructor
  · rintro ⟨snapshot, hload, out, hrun, -⟩
    have hraises : (loadSnapshot PyFloat.exact .none wordTime >>= fun snapshot =>
        relayFunding Literals.none snapshot "XRP" 0 7200).toBool = false := by decide +kernel
    rw [hload] at hraises
    change (relayFunding Literals.none snapshot "XRP" 0 7200).toBool = false at hraises
    rw [hrun] at hraises
    cases hraises
  · rintro ⟨snapshot, hload, out, hrun, hnear⟩
    have hquotes : (loadSnapshot PyFloat.exact .none futureTime >>= fun snapshot =>
        (relayFunding Literals.none snapshot "XRP" 0 7200).map (·.map Prod.snd)) =
          .ok [some (.fin 1)] := by decide +kernel
    have htime : (loadSnapshot PyFloat.exact .none futureTime >>= timestamp Literals.none) =
        .ok 1000000 := by
      decide +kernel
    rw [hload] at hquotes htime
    change (relayFunding Literals.none snapshot "XRP" 0 7200).map (·.map Prod.snd) =
      .ok [some (.fin 1)] at hquotes
    change timestamp Literals.none snapshot = .ok 1000000 at htime
    rw [hrun] at hquotes
    have hquotes : out.map Prod.snd = [some (.fin 1)] := Except.ok.inj hquotes
    have hmem : some (.fin 1) ∈ out.map Prod.snd := hquotes ▸ List.mem_cons_self
    obtain ⟨entry, hentry, hquote⟩ := List.mem_map.mp hmem
    obtain ⟨ts, hts, hwithin⟩ := hnear entry hentry (hquote ▸ Option.some_ne_none _)
    obtain rfl := Except.ok.inj (htime.symm.trans hts)
    exact absurd hwithin (by decide)

end Relay

end TreasuryForge
