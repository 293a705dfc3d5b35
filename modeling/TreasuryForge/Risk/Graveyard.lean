/-
# `Risk.Graveyard` — rejections become accumulated knowledge

The strategy graveyard of `risk/graveyard.py`.  Everything it knows is in its file: a burial is
written as a line of JSON, and the file holds what comes back of every burial, in order
(`all_foldl_bury`).  A revival is decided by the first burial under the id alone
(`checkRevival_bury`), and a condition that compares in another way than `>` and `<` does not stand
in its way (`unmet_of_unknown`); `never_early` says what is buried where neither matters.
-/
import TreasuryForge.Base.JsonInOrder

namespace TreasuryForge

open JsonText Lines

namespace Risk

abbrev Number (F : Type) := ℤ ⊕ F

/-- `(op, value)` under the metric's name is what `metric op value` says.  `N` are the keys of the
dictionaries: they are texts when the entry was read. -/
structure GraveyardEntry (N F : Type) where
  strategyId : Str
  hypothesis : Str
  market : Str
  date : Str
  metrics : List (N × Val F)
  verdict : Str
  failureMode : Str
  revivalCondition : List (N × Str × Number F)
  fingerprint : Str := []

variable {F : Type}

namespace GraveyardEntry

def ofNumber : Number F → Val F
  | .inl n => .int n
  | .inr x => .float x

/-- `asdict`, of a condition `[op, value]` under each metric. -/
def asdict (e : GraveyardEntry (Key F) F) : List (String × Val F) :=
  [("strategy_id", .str e.strategyId), ("hypothesis", .str e.hypothesis),
    ("market", .str e.market), ("date", .str e.date), ("metrics", .dict e.metrics),
    ("verdict", .str e.verdict), ("failure_mode", .str e.failureMode),
    ("revival_condition", .dict (e.revivalCondition.map fun c =>
      (c.1, .list [.str c.2.1, ofNumber c.2.2]))),
    ("fingerprint", .str e.fingerprint)]

def parameters : List String :=
  ["strategy_id", "hypothesis", "market", "date", "metrics", "verdict", "failure_mode",
    "revival_condition", "fingerprint"]

def isParameter : Key F → Bool
  | .str s => parameters.any fun name => s = Str.of name
  | _ => false

def text : Val F → Option Str
  | .str s => some s
  | _ => none

def named : Val F → Option (List (Str × Val F))
  | .dict items => items.mapM fun
      | (.str s, v) => some (s, v)
      | _ => none
  | _ => none

def condition : Str × Val F → Option (Str × Str × Number F)
  | (name, .list [.str op, .int n]) => some (name, op, .inl n)
  | (name, .list [.str op, .float x]) => some (name, op, .inr x)
  | _ => none

/-- `GraveyardEntry(**items)`; fails where it raises, and on values that no burial writes. -/
def ofDict (items : List (Key F × Val F)) : Option (GraveyardEntry Str F) :=
  if items.all fun m => isParameter m.1 then do
    return {
      strategyId := ← (get? items "strategy_id").bind text
      hypothesis := ← (get? items "hypothesis").bind text
      market := ← (get? items "market").bind text
      date := ← (get? items "date").bind text
      metrics := ← (get? items "metrics").bind named
      verdict := ← (get? items "verdict").bind text
      failureMode := ← (get? items "failure_mode").bind text
      revivalCondition :=
        ← ((get? items "revival_condition").bind named).bind fun cs => cs.mapM condition
      fingerprint := ← text ((get? items "fingerprint").getD (.str [])) }
  else none

variable (fl : Floats F)

/-- What comes back of an entry. -/
def reread (e : GraveyardEntry (Key F) F) : GraveyardEntry Str F where
  strategyId := e.strategyId.reread
  hypothesis := e.hypothesis.reread
  market := e.market.reread
  date := e.date.reread
  metrics := lastWins (e.metrics.map fun m => (m.1.reread fl, m.2.reread fl))
  verdict := e.verdict.reread
  failureMode := e.failureMode.reread
  revivalCondition :=
    lastWins (e.revivalCondition.map fun c => (c.1.reread fl, c.2.1.reread, c.2.2))
  fingerprint := e.fingerprint.reread

variable {fl}

@[simp] theorem reread_ofNumber (v : Number F) : (ofNumber v).reread fl = ofNumber v := by
  cases v with
  | inl n => exact reread_int n
  | inr x => exact reread_float x

theorem mapM_some {A B : Type} {f : A → Option B} {g : A → B} {as : List A}
    (h : ∀ a ∈ as, f a = some (g a)) : as.mapM f = some (as.map g) := by
  induction as with
  | nil => rfl
  | cons a as ih =>
      rw [List.mapM_cons, h a List.mem_cons_self, ih fun b hb => h b (List.mem_cons_of_mem a hb)]
      rfl

theorem named_reread (items : List (Key F × Val F)) : named ((Val.dict items).reread fl) =
    some (lastWins (items.map fun m => (m.1.reread fl, m.2.reread fl))) := by
  rw [reread_dict]
  show List.mapM _ _ = _
  rw [List.mapM_map]
  exact (mapM_some fun m _ => rfl).trans (congrArg some (List.map_id' _))

/-- A condition comes back as it was, under the name it was written as. -/
theorem conditions_reread (cs : List (Key F × Str × Number F)) :
    (named ((Val.dict (cs.map fun c => (c.1, .list [.str c.2.1, ofNumber c.2.2]))).reread fl)).bind
        (fun cs => cs.mapM condition) =
      some (lastWins (cs.map fun c => (c.1.reread fl, c.2.1.reread, c.2.2))) := by
  have hvalues : (cs.map fun c => (c.1, Val.list [.str c.2.1, ofNumber c.2.2])).map
      (fun m => (m.1.reread fl, m.2.reread fl)) =
        (cs.map fun c => (c.1.reread fl, c.2.1.reread, c.2.2)).map fun m =>
          (m.1, Val.list [.str m.2.1, ofNumber m.2.2]) := by
    rw [List.map_map, List.map_map]
    refine List.map_congr_left fun c _ => ?_
    simp
  have hlast := map_lastWins (fun d : Str × Number F => Val.list [.str d.1, ofNumber d.2])
    (cs.map fun c => (c.1.reread fl, c.2.1.reread, c.2.2))
  rw [named_reread, hvalues, ← hlast, Option.bind_some, List.mapM_map]
  refine (mapM_some fun c _ => ?_).trans (congrArg some (List.map_id' _))
  obtain ⟨name, op, val⟩ := c
  cases val <;> rfl

theorem ofDict_reread (e : GraveyardEntry (Key F) F) :
    ofDict (fields (e.asdict.map fun m => (m.1, m.2.reread fl))) = some (e.reread fl) := by
  have hall : (fields (e.asdict.map fun m => (m.1, m.2.reread fl))).all
      (fun m => isParameter m.1) = true := by
    simp [fields, asdict, isParameter, parameters]
  let read := e.asdict.map fun m => (m.1, m.2.reread fl)
  have hmetrics : (read.lookup "metrics").bind named =
      some (lastWins (e.metrics.map fun m => (m.1.reread fl, m.2.reread fl))) :=
    named_reread e.metrics
  have hconditions : ((read.lookup "revival_condition").bind named).bind
      (fun cs => cs.mapM condition) =
        some (lastWins (e.revivalCondition.map fun c => (c.1.reread fl, c.2.1.reread, c.2.2))) :=
    conditions_reread e.revivalCondition
  rw [ofDict, if_pos hall]
  simp only [get?_fields]
  rw [hmetrics, hconditions]
  rfl

end GraveyardEntry

variable (fl : Floats F)

/-- The text of the file, when there is one. -/
structure StrategyGraveyard where
  file : Option (List Char) := none

namespace StrategyGraveyard

/-- The line of an entry. -/
def lineOf (entry : GraveyardEntry (Key F) F) : List Char :=
  dumpsInOrder fl .compact (.dict (fields entry.asdict))

def bury (g : StrategyGraveyard) (entry : GraveyardEntry (Key F) F) : StrategyGraveyard :=
  ⟨some (g.file.getD [] ++ (lineOf fl entry ++ ['\n']))⟩

def entryOf (line : List Char) : Option (GraveyardEntry Str F) :=
  match loads fl line with
  | some (.dict items) => GraveyardEntry.ofDict items
  | _ => none

/-- Fails where a line cannot be read. -/
def all (g : StrategyGraveyard) : Option (List (GraveyardEntry Str F)) :=
  match g.file with
  | none => some []
  | some text => (records text).mapM (entryOf fl)

/-- Catch a disguised corpse. -/
def findByFingerprint (g : StrategyGraveyard) (fingerprint : Str) :
    Option (Option (GraveyardEntry Str F)) :=
  (g.all fl).map fun entries =>
    entries.find? fun e => e.fingerprint ≠ [] ∧ e.fingerprint = fingerprint

variable {fl} {entries : List (GraveyardEntry (Key F) F)}

/-! ## The file -/

theorem entryOf_lineOf (entry : GraveyardEntry (Key F) F) :
    entryOf fl (lineOf fl entry) = some (entry.reread fl) := by
  have hnames : (entry.asdict.map Prod.fst).Nodup :=
    (by decide : GraveyardEntry.parameters.Nodup)
  rw [entryOf, lineOf, loads_dumpsInOrder, reread_fields hnames]
  exact GraveyardEntry.ofDict_reread entry

theorem records_lines : records ((entries.map (lineOf fl)).flatMap (· ++ ['\n'])) =
    entries.map (lineOf fl) := by
  refine records_flatMap (List.forall_mem_map.mpr fun entry _ => ?_)
  obtain ⟨cs, hcs⟩ := render_obj_last .compact (treeItems fl (fields entry.asdict))
  exact ⟨unended_render _, strip_render_obj _, fun h => List.cons_ne_nil _ _ (hcs.symm.trans h)⟩

theorem file_foldl_bury (g : StrategyGraveyard) :
    (entries.foldl (bury fl) g).file.getD [] =
      g.file.getD [] ++ (entries.map (lineOf fl)).flatMap (· ++ ['\n']) := by
  induction entries generalizing g with
  | nil => exact (List.append_nil _).symm
  | cons entry entries ih =>
      rw [List.foldl_cons, ih, List.map_cons, List.flatMap_cons, ← List.append_assoc]
      rfl

theorem all_eq (g : StrategyGraveyard) :
    g.all fl = (records (g.file.getD [])).mapM (entryOf fl) := by
  obtain ⟨_ | text⟩ := g
  · rfl
  · rfl

/-- The file holds what comes back of every burial, in order. -/
theorem all_foldl_bury (entries : List (GraveyardEntry (Key F) F)) :
    (entries.foldl (bury fl) {}).all fl = some (entries.map (GraveyardEntry.reread fl)) := by
  rw [all_eq, file_foldl_bury]
  show (records ((entries.map (lineOf fl)).flatMap (· ++ ['\n']))).mapM _ = _
  rw [records_lines, List.mapM_map]
  refine GraveyardEntry.mapM_some fun entry _ => ?_
  rw [Function.comp_apply, entryOf_lineOf]

/-- A fingerprint is found again as soon as it was buried, and never when it is empty. -/
theorem findByFingerprint_isSome_iff (entries : List (GraveyardEntry (Key F) F))
    (fingerprint : Str) : ∃ found,
      (entries.foldl (bury fl) {}).findByFingerprint fl fingerprint = some found ∧
        (found.isSome = true ↔
          fingerprint ≠ [] ∧ ∃ e ∈ entries, e.fingerprint.reread = fingerprint) := by
  refine ⟨_, by rw [findByFingerprint, all_foldl_bury]; rfl, ?_⟩
  simp only [List.find?_isSome, decide_eq_true_eq]
  constructor
  · rintro ⟨e, he, hne, rfl⟩
    obtain ⟨entry, hentry, rfl⟩ := List.mem_map.mp he
    exact ⟨hne, entry, hentry, rfl⟩
  · rintro ⟨hne, entry, hentry, rfl⟩
    exact ⟨_, List.mem_map_of_mem hentry, hne, rfl⟩

/-! ## Conditions

The values are compared and written, and nothing is assumed of the order: NaN is a value too. -/

variable (fl) in
/-- The condition compares with `>` or `<`, and the metrics satisfy it. -/
def Satisfied (currentMetrics : Key F → Option (Number F))
    (condition : Key F × Str × Number F) : Prop :=
  ∃ cur, currentMetrics condition.1 = some cur ∧
    (condition.2.1 = Str.of ">" ∧ fl.less condition.2.2 cur = true ∨
      condition.2.1 = Str.of "<" ∧ fl.less cur condition.2.2 = true)

/-- The operator is one of the two that the check knows. -/
def Comparing (op : Str) : Prop := op = Str.of ">" ∨ op = Str.of "<"

section Check

variable (fl) (str : Number F → Str)

/-- What is said of a condition that is still unmet. -/
def unmet (currentMetrics : Key F → Option (Number F)) (condition : Str × Str × Number F) :
    Option Str :=
  let (metric, op, val) := condition
  match currentMetrics (.str metric) with
  | none => some (metric ++ Str.of ": not measured")
  | some cur =>
      if op = Str.of ">" ∧ fl.less val cur = false then
        some (metric ++ Str.of "=" ++ str cur ++ Str.of " not > " ++ str val)
      else if op = Str.of "<" ∧ fl.less cur val = false then
        some (metric ++ Str.of "=" ++ str cur ++ Str.of " not < " ++ str val)
      else none

/-- Does a buried strategy now meet all its revival conditions? -/
def checkRevival (g : StrategyGraveyard) (strategyId : Str)
    (currentMetrics : Key F → Option (Number F)) : Option (Bool × List Str) :=
  (g.all fl).map fun entries =>
    match entries.find? fun e => e.strategyId = strategyId with
    | none => (false, [Str.of "no buried strategy '" ++ strategyId ++ Str.of "'"])
    | some entry =>
        let unmet := entry.revivalCondition.filterMap (unmet fl str currentMetrics)
        (unmet.length = 0, unmet)

variable {fl str} {currentMetrics : Key F → Option (Number F)}
  {condition : Str × Str × Number F}

/-- No known condition that is not met goes without saying. -/
theorem satisfied_of_unmet (hop : Comparing condition.2.1)
    (h : unmet fl str currentMetrics condition = none) :
    Satisfied fl currentMetrics (.str condition.1, condition.2) := by
  obtain ⟨metric, op, val⟩ := condition
  unfold unmet at h
  dsimp only at h hop
  split at h
  · cases h
  · next cur hcur =>
      refine ⟨cur, hcur, ?_⟩
      split at h
      · cases h
      · next hgt =>
          split at h
          · cases h
          · next hlt =>
              rcases hop with rfl | rfl
              · exact Or.inl ⟨rfl, by simpa using hgt⟩
              · exact Or.inr ⟨rfl, by simpa using hlt⟩

/-- Any other operator counts as met, whatever is measured. -/
theorem unmet_of_unknown (hop : ¬Comparing condition.2.1) {cur : Number F}
    (hcur : currentMetrics (.str condition.1) = some cur) :
    unmet fl str currentMetrics condition = none := by
  obtain ⟨metric, op, val⟩ := condition
  obtain ⟨hgt, hlt⟩ := not_or.mp hop
  simp only [unmet, hcur]
  rw [if_neg fun h => hgt h.1, if_neg fun h => hlt h.1]

/-! ## Revivals -/

variable {strategyId : Str}

theorem checkRevival_iff {unmets : List Str} :
    (entries.foldl (bury fl) {}).checkRevival fl str strategyId currentMetrics =
        some (true, unmets) ↔
      unmets = [] ∧ ∃ entry, (entries.map (GraveyardEntry.reread fl)).find?
          (fun e => e.strategyId = strategyId) = some entry ∧
        ∀ c ∈ entry.revivalCondition, unmet fl str currentMetrics c = none := by
  rw [checkRevival, all_foldl_bury, Option.map_some]
  cases hfind : (entries.map (GraveyardEntry.reread fl)).find?
      fun e => e.strategyId = strategyId with
  | none => simp
  | some entry =>
      simp only [Option.some.injEq, Prod.mk.injEq, List.length_eq_zero_iff, decide_eq_true_eq,
        exists_eq_left']
      constructor
      · rintro ⟨hnil, rfl⟩
        exact ⟨hnil, List.filterMap_eq_nil_iff.mp hnil⟩
      · rintro ⟨rfl, hall⟩
        exact ⟨List.filterMap_eq_nil_iff.mpr hall, List.filterMap_eq_nil_iff.mpr hall⟩

/-- What the check says is said of the first burial under the id: a later one changes nothing. -/
theorem checkRevival_bury {first : GraveyardEntry (Key F) F} (hfirst : first ∈ entries)
    (hid : first.strategyId.reread = strategyId) (entry : GraveyardEntry (Key F) F) :
    ((entries.foldl (bury fl) {}).bury fl entry).checkRevival fl str strategyId currentMetrics =
      (entries.foldl (bury fl) {}).checkRevival fl str strategyId currentMetrics := by
  have hlast : (entries.foldl (bury fl) {}).bury fl entry =
      (entries ++ [entry]).foldl (bury fl) {} := by
    rw [List.foldl_append]
    rfl
  have hsome : ((entries.map (GraveyardEntry.reread fl)).find?
      fun e => e.strategyId = strategyId).isSome = true :=
    List.find?_isSome.mpr ⟨_, List.mem_map_of_mem hfirst, decide_eq_true hid⟩
  rw [hlast, checkRevival, checkRevival, all_foldl_bury, all_foldl_bury, List.map_append,
    Option.map_some, Option.map_some, List.find?_append, Option.or_of_isSome hsome]

/-! ## Never early -/

variable (fl str) in
/-- A revival says that something is buried under the id, and that every condition of everything
buried under it is satisfied. -/
def NeverEarly (entries : List (GraveyardEntry (Key F) F)) (strategyId : Str)
    (currentMetrics : Key F → Option (Number F)) : Prop :=
  ∀ unmets, (entries.foldl (bury fl) {}).checkRevival fl str strategyId currentMetrics =
      some (true, unmets) →
    (∃ e ∈ entries, e.strategyId = strategyId) ∧
      ∀ e ∈ entries, e.strategyId = strategyId →
        ∀ c ∈ e.revivalCondition, Satisfied fl currentMetrics c

variable (fl) in
/-- The entry compares with `>` and `<` only, and its metrics come back as they are. -/
structure Sound (e : GraveyardEntry (Key F) F) : Prop where
  comparing : ∀ c ∈ e.revivalCondition, Comparing c.2.1
  kept : ∀ c ∈ e.revivalCondition, c.1 = .str (c.1.reread fl)
  distinct : (e.revivalCondition.map fun c => c.1.reread fl).Nodup

/-- What comes back of its conditions. -/
theorem Sound.reread {e : GraveyardEntry (Key F) F} (h : Sound fl e) :
    (e.reread fl).revivalCondition = e.revivalCondition.map fun c => (c.1.reread fl, c.2) := by
  have hops : (e.revivalCondition.map fun c => (c.1.reread fl, c.2.1.reread, c.2.2)) =
      e.revivalCondition.map fun c => (c.1.reread fl, c.2) := by
    refine List.map_congr_left fun c hc => ?_
    have hop : c.2.1.reread = c.2.1 := by
      rcases h.comparing c hc with hgt | hlt
      · rw [hgt, reread_of]
      · rw [hlt, reread_of]
    rw [hop]
  have hnames : ((e.revivalCondition.map fun c => (c.1.reread fl, c.2)).map Prod.fst).Nodup := by
    rw [List.map_map]
    exact h.distinct
  rw [GraveyardEntry.reread, hops, lastWins_of_nodup hnames]

/-- The burials under the id: the first of them is sound, and the later ones ask for nothing that it
does not ask for. -/
structure Guarded (fl : Floats F) (strategyId : Str) (entries : List (GraveyardEntry (Key F) F)) :
    Prop where
  ids : ∀ e ∈ entries, e.strategyId.reread = e.strategyId
  first : ∀ {first later}, entries.filter (fun e => e.strategyId = strategyId) = first :: later →
    Sound fl first ∧ ∀ e ∈ later, e.revivalCondition ⊆ first.revivalCondition

/-- Where this is buried under the id, no revival is early, whatever else is buried. -/
theorem never_early (h : Guarded fl strategyId entries)
    (currentMetrics : Key F → Option (Number F)) :
    NeverEarly fl str entries strategyId currentMetrics := by
  intro unmets hrevived
  obtain ⟨-, entry, hfind, hmet⟩ := checkRevival_iff.mp hrevived
  obtain ⟨first, hfirst, rfl⟩ : ∃ first,
      (entries.filter fun e => e.strategyId = strategyId).head? = some first ∧
        first.reread fl = entry := by
    rw [List.find?_map, ← List.head?_filter] at hfind
    obtain ⟨first, hfirst, rfl⟩ := Option.map_eq_some_iff.mp hfind
    refine ⟨first, ?_, rfl⟩
    rw [← hfirst]
    refine congrArg List.head? (List.filter_congr fun e he => ?_)
    show decide (e.strategyId = strategyId) = decide (e.strategyId.reread = strategyId)
    rw [h.ids e he]
  obtain ⟨later, hburied⟩ := List.head?_eq_some_iff.mp hfirst
  obtain ⟨hsound, hlater⟩ := h.first hburied
  have hsatisfied : ∀ c ∈ first.revivalCondition, Satisfied fl currentMetrics c := by
    intro c hc
    have hback := hmet (c.1.reread fl, c.2) (by
      rw [hsound.reread]
      exact List.mem_map_of_mem (f := fun c => (c.1.reread fl, c.2)) hc)
    have hsat := satisfied_of_unmet (hsound.comparing c hc) hback
    rw [← hsound.kept c hc] at hsat
    exact hsat
  have hmem : ∀ e, e ∈ first :: later ↔ e ∈ entries ∧ e.strategyId = strategyId := by
    intro e
    rw [← hburied, List.mem_filter, decide_eq_true_eq]
  refine ⟨⟨first, (hmem first).mp List.mem_cons_self⟩, fun e he hid c hc => ?_⟩
  rcases List.mem_cons.mp ((hmem e).mpr ⟨he, hid⟩) with rfl | hlate
  · exact hsatisfied c hc
  · exact hsatisfied c (hlater e hlate hc)

/-- A strategy with one revival condition, on one metric. -/
def corpse (strategyId op : String) (val : ℤ) : GraveyardEntry (Key Unit) Unit where
  strategyId := Str.of strategyId
  hypothesis := Str.of "AVAX and LTC spread mean-reverts"
  market := Str.of "hyperliquid 1h"
  date := Str.of "2026-06-17"
  metrics := [(.str (Str.of "trades"), .int 12)]
  verdict := Str.of "REJECT: EDGE_IS_NOT_RELIABLE"
  failureMode := Str.of "too few trades"
  revivalCondition := [(.str (Str.of "trades"), Str.of op, .inl val)]

def measured (trades : ℤ) : Key Unit → Option (Number Unit)
  | .str s => if s = Str.of "trades" then some (.inl trades) else none
  | _ => none

def unspelled : Number Unit → Str := fun _ => []

/-- One burial under the id, and one under another that compares with `>=`. -/
theorem never_early_once : NeverEarly Floats.nan unspelled
    [corpse "PAIRS_AVAX_LTC" ">" 30, corpse "PAIRS_BTC_ETH" ">=" 10] (Str.of "PAIRS_AVAX_LTC")
    (measured 40) := by
  refine never_early ⟨?_, ?_⟩ (measured 40)
  · decide +kernel
  · intro first later hburied
    have hone : [corpse "PAIRS_AVAX_LTC" ">" 30, corpse "PAIRS_BTC_ETH" ">=" 10].filter
        (fun e => e.strategyId = Str.of "PAIRS_AVAX_LTC") = [corpse "PAIRS_AVAX_LTC" ">" 30] := rfl
    rw [hone] at hburied
    obtain ⟨rfl, rfl⟩ := List.cons.inj hburied
    refine ⟨⟨?_, ?_, List.nodup_singleton _⟩, fun e he => absurd he List.not_mem_nil⟩
    · intro c hc
      rw [List.mem_singleton.mp hc]
      exact Or.inl rfl
    · intro c hc
      rw [List.mem_singleton.mp hc, reread_key, reread_of]

/-- The second burial of one id is not looked at, and `>=` is not a condition. -/
theorem revived_early :
    ¬NeverEarly Floats.nan unspelled
      [corpse "PAIRS_AVAX_LTC" ">" 30, corpse "PAIRS_AVAX_LTC" ">" 90] (Str.of "PAIRS_AVAX_LTC")
      (measured 40) ∧
    ¬NeverEarly Floats.nan unspelled [corpse "PAIRS_AVAX_LTC" ">=" 30] (Str.of "PAIRS_AVAX_LTC")
      (measured 12) := by
  constructor
  · intro h
    obtain ⟨-, hall⟩ := h [] (by decide +kernel)
    obtain ⟨cur, hcur, hop⟩ := hall (corpse "PAIRS_AVAX_LTC" ">" 90) (by simp) rfl _
      List.mem_cons_self
    obtain rfl : Sum.inl 40 = cur := Option.some.inj hcur
    exact absurd hop (by decide)
  · intro h
    obtain ⟨-, hall⟩ := h [] (by decide +kernel)
    obtain ⟨cur, -, hop⟩ := hall (corpse "PAIRS_AVAX_LTC" ">=" 30) (by simp) rfl _
      List.mem_cons_self
    rcases hop with ⟨hgt, -⟩ | ⟨hlt, -⟩
    · exact absurd hgt (by decide)
    · exact absurd hlt (by decide)

end Check

end StrategyGraveyard

end Risk

end TreasuryForge
