/-
# `Capital.Allocator` — capital in proportion to the score, capped three ways

`carry_portfolio_allocator.py` over exact fractions.  The weights live in a dictionary by name,
and a cluster over its budget is scaled down in place.  The cluster budget is always kept
(`allocate_cluster`); with distinct names the weights are the capped shares, scaled once
(`allocate_weights`), and the rest of the caps hold exactly when no candidate's own cap lets it
over the global one (`allocate_respects_iff`).
-/
import TreasuryForge.Base.Dict
import Mathlib.Algebra.Order.BigOperators.Group.List
import Mathlib.Algebra.BigOperators.Ring.List
import Mathlib.Algebra.Order.Field.Basic
import Mathlib.Tactic.Linarith
import Mathlib.Tactic.NormNum

namespace TreasuryForge

namespace Capital

structure AllocatorCaps where
  maxPerPosition : ℚ := 25 / 100
  maxPerCluster : ℚ := 40 / 100
  maxTotal : ℚ := 1

structure Candidate where
  name : String
  cluster : String
  score : ℚ
  maxPosition : Option ℚ := none

structure Allocation where
  name : String
  cluster : String
  weight : ℚ
  deriving DecidableEq, Repr

section Allocate

variable (caps : AllocatorCaps)

def positive (candidates : List Candidate) : List Candidate := candidates.filter (0 < ·.score)

/-- The share of the total in proportion to the score, capped per position. -/
def capped (totalScore : ℚ) (c : Candidate) : ℚ :=
  min (c.maxPosition.getD caps.maxPerPosition) (caps.maxTotal * c.score / totalScore)

/-- `weights`; a later candidate of the same name overwrites. -/
def proportional (pos : List Candidate) : Dict String ℚ :=
  let totalScore := (pos.map (·.score)).sum
  pos.foldl (fun weights c => weights.set c.name (capped caps totalScore c)) .empty

def weightSum (weights : Dict String ℚ) (members : List Candidate) : ℚ :=
  (members.map fun c => weights.getD c.name 0).sum

/-- `weights[c.name] *= scale` for each member. -/
def scaleAll (scale : ℚ) (members : List Candidate) (weights : Dict String ℚ) : Dict String ℚ :=
  members.foldl (fun weights c => weights.set c.name (weights.getD c.name 0 * scale)) weights

/-- One cluster: scaled down together if it busts its budget. -/
def capCluster (weights : Dict String ℚ) (members : List Candidate) : Dict String ℚ :=
  let csum := weightSum weights members
  if caps.maxPerCluster < csum ∧ 0 < csum then
    scaleAll (caps.maxPerCluster / csum) members weights
  else weights

def clusters (pos : List Candidate) : Dict String (List Candidate) := .groupBy (·.cluster) pos

def settled (pos : List Candidate) : Dict String ℚ :=
  (clusters pos).values.foldl (capCluster caps) (proportional caps pos)

def allocate (candidates : List Candidate) : List Allocation :=
  let pos := positive candidates
  if pos = [] then []
  else pos.map fun c => ⟨c.name, c.cluster, (settled caps pos).getD c.name 0⟩

end Allocate

/-! ## Scaling -/

/-- Each time a name is listed its weight is scaled. -/
theorem getD_scaleAll (scale : ℚ) (members : List Candidate) (weights : Dict String ℚ)
    (name : String) : (scaleAll scale members weights).getD name 0 =
      weights.getD name 0 * scale ^ (members.map (·.name)).count name := by
  induction members generalizing weights with
  | nil =>
      rw [List.map_nil, List.count_nil, pow_zero, mul_one]
      rfl
  | cons c members ih =>
      have hstep : scaleAll scale (c :: members) weights =
          scaleAll scale members (weights.set c.name (weights.getD c.name 0 * scale)) := rfl
      rw [hstep, ih, Dict.getD_set, List.map_cons, List.count_cons]
      by_cases hname : name = c.name
      · subst hname
        rw [if_pos rfl, if_pos (beq_self_eq_true _), pow_succ, mul_assoc, mul_comm scale]
      · rw [if_neg hname, if_neg (by rw [beq_iff_eq]; exact Ne.symm hname), add_zero]

/-- Weights that are not negative, and none above what it was. -/
structure Below (weights' weights : Dict String ℚ) : Prop where
  nonneg : ∀ name, 0 ≤ weights'.getD name 0
  le : ∀ name, weights'.getD name 0 ≤ weights.getD name 0

theorem Below.trans {w₁ w₂ w₃ : Dict String ℚ} (h : Below w₁ w₂) (h' : Below w₂ w₃) :
    Below w₁ w₃ := ⟨h.nonneg, fun name => (h.le name).trans (h'.le name)⟩

theorem Below.weightSum {w w' : Dict String ℚ} (h : Below w' w) (members : List Candidate) :
    weightSum w' members ≤ weightSum w members :=
  List.sum_le_sum fun c _ => h.le c.name

section Cluster

variable {caps : AllocatorCaps} {weights : Dict String ℚ}

/-- The factor of a cluster over its budget. -/
theorem scale_mem (hcluster : 0 ≤ caps.maxPerCluster) {csum : ℚ}
    (h : caps.maxPerCluster < csum ∧ 0 < csum) :
    0 ≤ caps.maxPerCluster / csum ∧ caps.maxPerCluster / csum ≤ 1 :=
  ⟨div_nonneg hcluster h.2.le, (div_le_one h.2).mpr h.1.le⟩

theorem capCluster_below (hcluster : 0 ≤ caps.maxPerCluster)
    (hw : ∀ name, 0 ≤ weights.getD name 0) (members : List Candidate) :
    Below (capCluster caps weights members) weights := by
  unfold capCluster
  dsimp only
  split
  · next h =>
      obtain ⟨hscale, hone⟩ := scale_mem hcluster h
      constructor
      · intro name
        rw [getD_scaleAll]
        exact mul_nonneg (hw name) (pow_nonneg hscale _)
      · intro name
        rw [getD_scaleAll]
        exact mul_le_of_le_one_right (hw name) (pow_le_one₀ hscale hone)
  · exact ⟨hw, fun _ => le_rfl⟩

/-- After its turn a cluster is within its budget. -/
theorem capCluster_sum (hcluster : 0 ≤ caps.maxPerCluster)
    (hw : ∀ name, 0 ≤ weights.getD name 0) (members : List Candidate) :
    weightSum (capCluster caps weights members) members ≤ caps.maxPerCluster := by
  unfold capCluster
  dsimp only
  split
  · next h =>
      obtain ⟨hscale, hone⟩ := scale_mem hcluster h
      have hmember : ∀ c ∈ members,
          (scaleAll (caps.maxPerCluster / weightSum weights members) members weights).getD
              c.name 0 ≤
            weights.getD c.name 0 * (caps.maxPerCluster / weightSum weights members) := by
        intro c hc
        have hcount : 1 ≤ (members.map (·.name)).count c.name :=
          List.one_le_count_iff.mpr (List.mem_map_of_mem hc)
        rw [getD_scaleAll]
        refine mul_le_mul_of_nonneg_left ?_ (hw c.name)
        exact (pow_le_pow_of_le_one hscale hone hcount).trans_eq (pow_one _)
      calc weightSum _ members
          ≤ (members.map fun c => weights.getD c.name 0 *
              (caps.maxPerCluster / weightSum weights members)).sum := List.sum_le_sum hmember
        _ = weightSum weights members * (caps.maxPerCluster / weightSum weights members) :=
            List.sum_map_mul_right ..
        _ = caps.maxPerCluster := mul_div_cancel₀ _ h.2.ne'
  · next h =>
      rcases not_and_or.mp h with hbudget | hzero
      · exact not_lt.mp hbudget
      · exact (not_lt.mp hzero).trans hcluster

theorem foldl_capCluster_below (hcluster : 0 ≤ caps.maxPerCluster)
    (hw : ∀ name, 0 ≤ weights.getD name 0) (groups : List (List Candidate)) :
    Below (groups.foldl (capCluster caps) weights) weights := by
  induction groups generalizing weights with
  | nil => exact ⟨hw, fun _ => le_rfl⟩
  | cons members groups ih =>
      have hstep := capCluster_below hcluster hw members
      exact (ih hstep.nonneg).trans hstep

/-- Later clusters only lower what an earlier one was left with. -/
theorem foldl_capCluster_sum (hcluster : 0 ≤ caps.maxPerCluster)
    (hw : ∀ name, 0 ≤ weights.getD name 0) {groups : List (List Candidate)}
    {members : List Candidate} (hmem : members ∈ groups) :
    weightSum (groups.foldl (capCluster caps) weights) members ≤ caps.maxPerCluster := by
  induction groups generalizing weights with
  | nil => cases hmem
  | cons first groups ih =>
      have hstep := capCluster_below hcluster hw first
      rcases List.mem_cons.mp hmem with rfl | hmem
      · have hlater := foldl_capCluster_below hcluster hstep.nonneg groups
        exact (hlater.weightSum members).trans (capCluster_sum hcluster hw members)
      · exact ih hstep.nonneg hmem

end Cluster

/-! ## The weights -/

section Weights

variable (caps : AllocatorCaps) (pos : List Candidate)

def totalScore : ℚ := (pos.map (·.score)).sum

/-- What the members of a cluster ask for together. -/
def demand (k : String) : ℚ :=
  ((pos.filter (·.cluster = k)).map (capped caps (totalScore pos))).sum

/-- What the members of a cluster are scaled by. -/
def scaleOf (k : String) : ℚ :=
  if caps.maxPerCluster < demand caps pos k ∧ 0 < demand caps pos k then
    caps.maxPerCluster / demand caps pos k
  else 1

variable {caps pos}

theorem getD_foldl_set_of_not_mem (f : Candidate → ℚ) {cs : List Candidate} {name : String}
    (h : name ∉ cs.map (·.name)) (w : Dict String ℚ) :
    (cs.foldl (fun w c => w.set c.name (f c)) w).getD name 0 = w.getD name 0 := by
  induction cs generalizing w with
  | nil => rfl
  | cons c cs ih =>
      obtain ⟨hne, hrest⟩ := not_or.mp fun hmem => h (List.mem_cons.mpr hmem)
      rw [List.foldl_cons, ih hrest, Dict.getD_set, if_neg hne]

theorem getD_foldl_set_of_mem (f : Candidate → ℚ) {cs : List Candidate}
    (hnames : (cs.map (·.name)).Nodup) {c : Candidate} (hc : c ∈ cs) (w : Dict String ℚ) :
    (cs.foldl (fun w c => w.set c.name (f c)) w).getD c.name 0 = f c := by
  induction cs generalizing w with
  | nil => cases hc
  | cons first cs ih =>
      obtain ⟨hfirst, hrest⟩ := List.nodup_cons.mp hnames
      rw [List.foldl_cons]
      rcases List.mem_cons.mp hc with rfl | hc
      · rw [getD_foldl_set_of_not_mem f hfirst, Dict.getD_set, if_pos rfl]
      · exact ih hrest hc _

theorem foldl_set_nonneg {f : Candidate → ℚ} {cs : List Candidate} (hf : ∀ c ∈ cs, 0 ≤ f c)
    {w : Dict String ℚ} (hw : ∀ name, 0 ≤ w.getD name 0) (name : String) :
    0 ≤ (cs.foldl (fun w c => w.set c.name (f c)) w).getD name 0 := by
  induction cs generalizing w with
  | nil => exact hw name
  | cons c cs ih =>
      refine ih (fun c' hc' => hf c' (List.mem_cons_of_mem c hc')) ?_
      intro name
      rw [Dict.getD_set]
      split
      · exact hf c List.mem_cons_self
      · exact hw name

/-- With distinct names one cluster's turn scales its members once, and nobody else. -/
theorem capCluster_weights (hnames : (pos.map (·.name)).Nodup) {w : Dict String ℚ} {k : String}
    (hw : ∀ c ∈ pos, c.cluster = k → w.getD c.name 0 = capped caps (totalScore pos) c)
    {c : Candidate} (hc : c ∈ pos) :
    (capCluster caps w (pos.filter (·.cluster = k))).getD c.name 0 =
      w.getD c.name 0 * if c.cluster = k then scaleOf caps pos k else 1 := by
  have hcsum : weightSum w (pos.filter (·.cluster = k)) = demand caps pos k := by
    refine congrArg List.sum (List.map_congr_left ?_)
    intro c' hc'
    obtain ⟨hmem, hk⟩ := List.mem_filter.mp hc'
    exact hw c' hmem (of_decide_eq_true hk)
  have hsub : ((pos.filter (·.cluster = k)).map (·.name)).Nodup :=
    hnames.sublist (List.filter_sublist.map _)
  have hmem : c.name ∈ (pos.filter (·.cluster = k)).map (·.name) ↔ c.cluster = k := by
    constructor
    · intro hname
      obtain ⟨c', hc', heq⟩ := List.mem_map.mp hname
      obtain ⟨hpos, hk⟩ := List.mem_filter.mp hc'
      rw [← List.inj_on_of_nodup_map hnames hpos hc heq]
      exact of_decide_eq_true hk
    · intro hk
      exact List.mem_map_of_mem (List.mem_filter.mpr ⟨hc, decide_eq_true hk⟩)
  unfold capCluster scaleOf
  rw [hcsum]
  dsimp only
  by_cases hover : caps.maxPerCluster < demand caps pos k ∧ 0 < demand caps pos k
  · rw [if_pos hover, if_pos hover, getD_scaleAll]
    by_cases hk : c.cluster = k
    · rw [if_pos hk, List.count_eq_one_of_mem hsub (hmem.mpr hk), pow_one]
    · rw [if_neg hk, List.count_eq_zero_of_not_mem fun hname => hk (hmem.mp hname), pow_zero]
  · rw [if_neg hover, if_neg hover, ite_self, mul_one]

theorem foldl_capCluster_weights (hnames : (pos.map (·.name)).Nodup)
    {groups : List (String × List Candidate)} (hkeys : (groups.map Prod.fst).Nodup)
    (hgroups : ∀ g ∈ groups, g.2 = pos.filter (·.cluster = g.1)) {w : Dict String ℚ}
    (hw : ∀ c ∈ pos, c.cluster ∈ groups.map Prod.fst →
      w.getD c.name 0 = capped caps (totalScore pos) c) {c : Candidate} (hc : c ∈ pos) :
    ((groups.map Prod.snd).foldl (capCluster caps) w).getD c.name 0 = w.getD c.name 0 *
      if c.cluster ∈ groups.map Prod.fst then scaleOf caps pos c.cluster else 1 := by
  induction groups generalizing w with
  | nil => exact (mul_one _).symm
  | cons g groups ih =>
      obtain ⟨k, members⟩ := g
      obtain rfl : members = pos.filter (·.cluster = k) := hgroups _ List.mem_cons_self
      obtain ⟨hk, hrest⟩ := List.nodup_cons.mp hkeys
      have hturn : ∀ c ∈ pos, (capCluster caps w (pos.filter (·.cluster = k))).getD c.name 0 =
          w.getD c.name 0 * if c.cluster = k then scaleOf caps pos k else 1 := by
        intro c hc
        refine capCluster_weights hnames ?_ hc
        intro c' hc' hck
        exact hw c' hc' (List.mem_cons.mpr (Or.inl hck))
      have hlater : ∀ c ∈ pos, c.cluster ∈ groups.map Prod.fst →
          (capCluster caps w (pos.filter (·.cluster = k))).getD c.name 0 =
            capped caps (totalScore pos) c := by
        intro c hc hmem
        have hck : c.cluster ≠ k := fun h => hk (h ▸ hmem)
        rw [hturn c hc, if_neg hck, mul_one]
        exact hw c hc (List.mem_cons_of_mem k hmem)
      rw [List.map_cons, List.foldl_cons,
        ih hrest (fun g hg => hgroups g (List.mem_cons_of_mem _ hg)) hlater, hturn c hc,
        List.map_cons]
      by_cases hck : c.cluster = k
      · rw [if_pos hck, if_neg (hck ▸ hk), if_pos (List.mem_cons.mpr (Or.inl hck)), mul_one, hck]
      · have hiff : c.cluster ∈ k :: groups.map Prod.fst ↔ c.cluster ∈ groups.map Prod.fst :=
          List.mem_cons.trans (or_iff_right hck)
        rw [if_neg hck, mul_one]
        simp only [hiff]

/-- With distinct names each weight is the capped share, scaled with the cluster. -/
theorem settled_weight (hnames : (pos.map (·.name)).Nodup) {c : Candidate} (hc : c ∈ pos) :
    (settled caps pos).getD c.name 0 =
      capped caps (totalScore pos) c * scaleOf caps pos c.cluster := by
  have hstart : ∀ c ∈ pos, (proportional caps pos).getD c.name 0 =
      capped caps (totalScore pos) c := by
    intro c hc
    exact getD_foldl_set_of_mem _ hnames hc _
  have hkey : c.cluster ∈ (clusters pos).items.map Prod.fst :=
    Dict.mem_keys_groupBy.mpr ⟨c, hc, rfl⟩
  have hrun : (settled caps pos).getD c.name 0 = (proportional caps pos).getD c.name 0 *
      if c.cluster ∈ (clusters pos).items.map Prod.fst then scaleOf caps pos c.cluster else 1 :=
    foldl_capCluster_weights hnames (clusters pos).nodup (fun g hg => Dict.mem_groupBy hg)
      (fun c hc _ => hstart c hc) hc
  rw [hrun, if_pos hkey, hstart c hc]

end Weights

/-! ## All caps at once -/

section Caps

variable {caps : AllocatorCaps} {candidates : List Candidate}

theorem allocate_eq (caps : AllocatorCaps) (candidates : List Candidate) :
    allocate caps candidates = (positive candidates).map fun c =>
      ⟨c.name, c.cluster, (settled caps (positive candidates)).getD c.name 0⟩ := by
  unfold allocate
  dsimp only
  split
  · next h =>
      rw [h]
      rfl
  · rfl

/-- No cap is negative. -/
structure AllocatorCaps.Nonneg (caps : AllocatorCaps) : Prop where
  position : 0 ≤ caps.maxPerPosition
  cluster : 0 ≤ caps.maxPerCluster
  total : 0 ≤ caps.maxTotal

/-- No candidate's own cap is negative. -/
def OwnNonneg (candidates : List Candidate) : Prop :=
  ∀ c ∈ candidates, ∀ m, c.maxPosition = some m → 0 ≤ m

/-- What an allocation promises: each weight within the tighter of the global and the own cap,
each cluster within its budget, and all of them within the total. -/
structure CapsHold (caps : AllocatorCaps) (candidates : List Candidate)
    (allocations : List Allocation) : Prop where
  position : List.Forall₂ (fun c a => a.name = c.name ∧ a.cluster = c.cluster ∧
    a.weight ≤ caps.maxPerPosition ∧ ∀ m, c.maxPosition = some m → a.weight ≤ m)
    (positive candidates) allocations
  cluster : ∀ k, ((allocations.filter (·.cluster = k)).map (·.weight)).sum ≤ caps.maxPerCluster
  total : (allocations.map (·.weight)).sum ≤ caps.maxTotal

/-- The part of the total that a candidate's score comes to. -/
def shareOf (caps : AllocatorCaps) (pos : List Candidate) (c : Candidate) : ℚ :=
  caps.maxTotal * c.score / totalScore pos

/-- Every candidate with a cap of its own stays within the global one: by that cap, by its share,
or because its cluster is over budget by enough. -/
def OwnWithin (caps : AllocatorCaps) (candidates : List Candidate) : Prop :=
  let pos := positive candidates
  ∀ c ∈ pos, ∀ m, c.maxPosition = some m →
    min m (shareOf caps pos c) ≤ caps.maxPerPosition ∨
      (caps.maxPerCluster < demand caps pos c.cluster ∧
        caps.maxPerCluster * min m (shareOf caps pos c) ≤
          caps.maxPerPosition * demand caps pos c.cluster)

theorem score_pos {c : Candidate} (hc : c ∈ positive candidates) : 0 < c.score :=
  of_decide_eq_true (List.mem_filter.mp hc).2

theorem totalScore_nonneg : 0 ≤ totalScore (positive candidates) := by
  refine List.sum_nonneg ?_
  intro x hx
  obtain ⟨c, hc, rfl⟩ := List.mem_map.mp hx
  exact (score_pos hc).le

theorem shareOf_nonneg (hcaps : caps.Nonneg) {c : Candidate} (hc : c ∈ positive candidates) :
    0 ≤ shareOf caps (positive candidates) c :=
  div_nonneg (mul_nonneg hcaps.total (score_pos hc).le) totalScore_nonneg

theorem capped_nonneg (hcaps : caps.Nonneg) (hown : OwnNonneg candidates) {c : Candidate}
    (hc : c ∈ positive candidates) : 0 ≤ capped caps (totalScore (positive candidates)) c := by
  refine le_min ?_ (shareOf_nonneg hcaps hc)
  cases hm : c.maxPosition with
  | none => exact hcaps.position
  | some m => exact hown c (List.mem_filter.mp hc).1 m hm

/-- The shares are of the whole. -/
theorem sum_shareOf (hcaps : caps.Nonneg) :
    ((positive candidates).map (shareOf caps (positive candidates))).sum ≤ caps.maxTotal := by
  have hsum : ((positive candidates).map (shareOf caps (positive candidates))).sum =
      caps.maxTotal * totalScore (positive candidates) / totalScore (positive candidates) := by
    have hmap : (positive candidates).map (shareOf caps (positive candidates)) =
        (positive candidates).map fun c =>
          c.score * (caps.maxTotal / totalScore (positive candidates)) := by
      refine List.map_congr_left ?_
      intro c _
      rw [shareOf, mul_comm caps.maxTotal, mul_div_assoc]
    rw [hmap, List.sum_map_mul_right, ← totalScore, mul_comm caps.maxTotal, mul_div_assoc]
  rw [hsum]
  rcases totalScore_nonneg.eq_or_lt with hzero | hpos
  · rw [← hzero, div_zero]
    exact hcaps.total
  · rw [mul_div_cancel_right₀ _ hpos.ne']

theorem scaleOf_mem (hcaps : caps.Nonneg) (pos : List Candidate) (k : String) :
    0 ≤ scaleOf caps pos k ∧ scaleOf caps pos k ≤ 1 := by
  unfold scaleOf
  split
  · next h => exact scale_mem hcaps.cluster h
  · exact ⟨zero_le_one, le_rfl⟩

/-- Whatever the names, each cluster stays within its budget. -/
theorem allocate_cluster (hcaps : caps.Nonneg) (hown : OwnNonneg candidates) (k : String) :
    (((allocate caps candidates).filter (·.cluster = k)).map (·.weight)).sum ≤
      caps.maxPerCluster := by
  have hfilter : ((allocate caps candidates).filter (·.cluster = k)).map (·.weight) =
      ((positive candidates).filter (·.cluster = k)).map fun c =>
        (settled caps (positive candidates)).getD c.name 0 := by
    rw [allocate_eq, List.filter_map, List.map_map]
    rfl
  rw [hfilter]
  by_cases hmem : ∃ c ∈ positive candidates, c.cluster = k
  · have hstart : ∀ name, 0 ≤ (proportional caps (positive candidates)).getD name 0 :=
      foldl_set_nonneg (fun c hc => capped_nonneg hcaps hown hc) fun _ => le_rfl
    have hkey : k ∈ (clusters (positive candidates)).keys := Dict.mem_keys_groupBy.mpr hmem
    obtain ⟨⟨k', members⟩, hitem, rfl⟩ := List.mem_map.mp hkey
    obtain rfl := Dict.mem_groupBy hitem
    exact foldl_capCluster_sum hcaps.cluster hstart (List.mem_map_of_mem hitem)
  · have hnil : (positive candidates).filter (·.cluster = k) = [] := by
      refine List.filter_eq_nil_iff.mpr ?_
      intro c hc hk
      exact hmem ⟨c, hc, of_decide_eq_true hk⟩
    rw [hnil]
    exact hcaps.cluster

/-- The scaled weight of a candidate with an own cap is within the global one. -/
theorem scaled_le_iff (hcaps : caps.Nonneg) {pos : List Candidate} {k : String} {x : ℚ}
    (hx : 0 ≤ x) : x * scaleOf caps pos k ≤ caps.maxPerPosition ↔
      x ≤ caps.maxPerPosition ∨ (caps.maxPerCluster < demand caps pos k ∧
        caps.maxPerCluster * x ≤ caps.maxPerPosition * demand caps pos k) := by
  unfold scaleOf
  by_cases hover : caps.maxPerCluster < demand caps pos k
  · have hpos : 0 < demand caps pos k := hcaps.cluster.trans_lt hover
    have hscaled : x * (caps.maxPerCluster / demand caps pos k) ≤ caps.maxPerPosition ↔
        caps.maxPerCluster * x ≤ caps.maxPerPosition * demand caps pos k := by
      rw [← mul_div_assoc, div_le_iff₀ hpos, mul_comm x]
    rw [if_pos ⟨hover, hpos⟩]
    constructor
    · intro hle
      exact Or.inr ⟨hover, hscaled.mp hle⟩
    · rintro (hle | ⟨-, hle⟩)
      · have hone : caps.maxPerCluster / demand caps pos k ≤ 1 := (div_le_one hpos).mpr hover.le
        exact (mul_le_of_le_one_right hx hone).trans hle
      · exact hscaled.mpr hle
  · rw [if_neg fun h => hover h.1, mul_one]
    exact (or_iff_left fun h => hover h.1).symm

/-! ### Distinct names -/

section Distinct

variable (hcaps : caps.Nonneg) (hown : OwnNonneg candidates)
  (hnames : ((positive candidates).map (·.name)).Nodup)
include hcaps hown hnames

/-- The settled weight is the smaller of cap and share, scaled down. -/
theorem settled_scaled {c : Candidate} (hc : c ∈ positive candidates) :
    ∃ x, x = min (c.maxPosition.getD caps.maxPerPosition) (shareOf caps (positive candidates) c) ∧
      0 ≤ x ∧ (settled caps (positive candidates)).getD c.name 0 =
        x * scaleOf caps (positive candidates) c.cluster :=
  ⟨_, rfl, capped_nonneg hcaps hown hc, settled_weight hnames hc⟩

theorem settled_le {c : Candidate} (hc : c ∈ positive candidates) :
    (settled caps (positive candidates)).getD c.name 0 ≤
      min (c.maxPosition.getD caps.maxPerPosition) (shareOf caps (positive candidates) c) := by
  obtain ⟨x, rfl, hx, hweight⟩ := settled_scaled hcaps hown hnames hc
  rw [hweight]
  exact mul_le_of_le_one_right hx (scaleOf_mem hcaps _ _).2

theorem settled_le_own {c : Candidate} (hc : c ∈ positive candidates) {m : ℚ}
    (hm : c.maxPosition = some m) :
    (settled caps (positive candidates)).getD c.name 0 ≤ m := by
  have hle := settled_le hcaps hown hnames hc
  rw [hm, Option.getD_some] at hle
  exact hle.trans (min_le_left _ _)

/-- A weight is within the global cap as long as the own cap does not let it over. -/
theorem settled_le_position_iff {c : Candidate} (hc : c ∈ positive candidates) :
    (settled caps (positive candidates)).getD c.name 0 ≤ caps.maxPerPosition ↔
      ∀ m, c.maxPosition = some m →
        min m (shareOf caps (positive candidates) c) ≤ caps.maxPerPosition ∨
          (caps.maxPerCluster < demand caps (positive candidates) c.cluster ∧
            caps.maxPerCluster * min m (shareOf caps (positive candidates) c) ≤
              caps.maxPerPosition * demand caps (positive candidates) c.cluster) := by
  cases hm : c.maxPosition with
  | none =>
      have hle := settled_le hcaps hown hnames hc
      rw [hm, Option.getD_none] at hle
      exact iff_of_true (hle.trans (min_le_left _ _)) fun m h => nomatch h
  | some own =>
      obtain ⟨x, hx, hnonneg, hweight⟩ := settled_scaled hcaps hown hnames hc
      rw [hm, Option.getD_some] at hx
      rw [hweight, scaled_le_iff hcaps hnonneg, hx]
      simp only [Option.some.injEq, forall_eq']

theorem allocate_total :
    ((allocate caps candidates).map (·.weight)).sum ≤ caps.maxTotal := by
  rw [allocate_eq, List.map_map]
  refine (List.sum_le_sum ?_).trans (sum_shareOf hcaps)
  intro c hc
  exact (settled_le hcaps hown hnames hc).trans (min_le_right _ _)

end Distinct

/-- With distinct names every cap holds exactly when no candidate's own cap lets it over the
global one. -/
theorem allocate_respects_iff (hcaps : caps.Nonneg) (hown : OwnNonneg candidates)
    (hnames : ((positive candidates).map (·.name)).Nodup) :
    CapsHold caps candidates (allocate caps candidates) ↔ OwnWithin caps candidates := by
  constructor
  · intro hhold c hc
    have hle := hhold.position
    rw [allocate_eq, List.forall₂_map_right_iff, List.forall₂_same] at hle
    exact (settled_le_position_iff hcaps hown hnames hc).mp (hle c hc).2.2.1
  · intro hwithin
    refine ⟨?_, allocate_cluster hcaps hown, allocate_total hcaps hown hnames⟩
    rw [allocate_eq, List.forall₂_map_right_iff, List.forall₂_same]
    intro c hc
    refine ⟨rfl, rfl, (settled_le_position_iff hcaps hown hnames hc).mpr (hwithin c hc), ?_⟩
    intro m hm
    exact settled_le_own hcaps hown hnames hc hm

end Caps

/-- A cap below the global one, and a share below it too. -/
theorem allocate_respects_two :
    CapsHold {} [⟨"a", "x", 1, some (1 / 10)⟩, ⟨"b", "y", 3, none⟩]
      (allocate {} [⟨"a", "x", 1, some (1 / 10)⟩, ⟨"b", "y", 3, none⟩]) := by
  refine (allocate_respects_iff ⟨by norm_num, by norm_num, by norm_num⟩ ?_ (by decide)).mpr ?_
  · intro c hc m hm
    rcases List.mem_cons.mp hc with rfl | hc
    · cases hm
      norm_num
    · rw [List.mem_singleton.mp hc] at hm
      cases hm
  · intro c hc m hm
    left
    rcases List.mem_cons.mp (List.mem_filter.mp hc).1 with rfl | hc
    · cases hm
      exact (min_le_left _ _).trans (by norm_num)
    · rw [List.mem_singleton.mp hc] at hm
      cases hm

/-- An own cap above the global one takes its place: 40% in one position, of 25% at most.  And a
name that is repeated counts its last share twice: 150% in all. -/
theorem allocate_breaks_caps :
    ¬ CapsHold {} [⟨"a", "x", 1, some 1⟩] (allocate {} [⟨"a", "x", 1, some 1⟩]) ∧
      ¬ CapsHold ⟨1, 1, 1⟩ [⟨"a", "x", 1, none⟩, ⟨"a", "y", 3, none⟩]
        (allocate ⟨1, 1, 1⟩ [⟨"a", "x", 1, none⟩, ⟨"a", "y", 3, none⟩]) := by
  constructor
  · intro h
    have hrun : allocate {} [⟨"a", "x", 1, some 1⟩] = [⟨"a", "x", 2 / 5⟩] := by decide +kernel
    have hpos : positive [⟨"a", "x", 1, some 1⟩] = [⟨"a", "x", 1, some 1⟩] := rfl
    have hposition := h.position
    rw [hrun, hpos, List.forall₂_cons] at hposition
    exact absurd hposition.1.2.2.1 (by decide +kernel)
  · intro h
    have hrun : allocate ⟨1, 1, 1⟩ [⟨"a", "x", 1, none⟩, ⟨"a", "y", 3, none⟩] =
        [⟨"a", "x", 3 / 4⟩, ⟨"a", "y", 3 / 4⟩] := by decide +kernel
    have htotal := h.total
    rw [hrun] at htotal
    exact absurd htotal (by decide +kernel)

end Capital

end TreasuryForge
