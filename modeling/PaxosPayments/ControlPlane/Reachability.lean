import Mathlib.Data.Finset.Sort
import Mathlib.Data.List.MinMax
import Mathlib.Data.Prod.Lex
import Mathlib.Data.String.Basic
import PaxosPayments.ControlPlane.Faults
import PaxosPayments.Paxos.Node

/-!
# Who can reach whom

`transport.Faults.Check` decides about every message, and on the live nodes it is an equivalence:
the network falls into sides (`check_comm`, `check_trans`). A node process has a copy of the fault
table, which travels as a `FaultState`, and decides as the engine does (`restore_state`).

`majorityGroup` looks for a side of a shard that has a majority. It collects the live replicas in
a Go map from the number of a group to its members and keeps the best as it ranges over the map, so
the order in which it sees the groups is left open here. It does not matter
(`majorityGroup_spec`): there is a side with a majority exactly if some replica reaches one, and
then it is the side that is found.

`leaderOf` looks for the leader among the replicas of that side, and `leaderFor` repeats that until
it finds one. Whom it returns is alive, reaches a majority, and has the highest ballot of all that
claim to lead there (`leaderFor_spec`). `settled_iff` says for what the engine waits after a fault.
These are about replicas with different names and a quorum of more than half of them, as every shard
of a `Topology` has (`nodup_members`, `length_members_lt`).
-/

namespace PaxosPayments.ControlPlane

/-! ## The fault table -/

/-- A copy of the table that can be sent. -/
structure FaultState where
  dead : List String
  groups : List (List String)

namespace Faults

/-- `Heal`. -/
def heal (f : Faults) : Faults := f.partition []

/-- `Partitioned`. -/
def partitioned (f : Faults) : Bool := f.groups ≠ []

/-- `Check`: why a message may not travel. -/
def check (f : Faults) (source target : String) : Option String :=
  if f.isDead source then some ("unreachable: " ++ source ++ " is down")
  else if f.isDead target then some ("unreachable: " ++ target ++ " is down")
  else if f.groupOf source ≠ f.groupOf target then
    some ("unreachable: " ++ source ++ " and " ++ target ++ " are partitioned")
  else none

/-- `State`. -/
def state (f : Faults) : FaultState := ⟨f.dead.sort, f.groups⟩

/-- `Restore`. -/
def restore (f : Faults) (s : FaultState) : Faults :=
  { f.partition s.groups with dead := s.dead.toFinset }

/-- The numbers of the groups are those that `Partition` gives. -/
def Consistent (f : Faults) : Prop := f.group = assign 0 f.groups fun _ => none

variable {f : Faults} {p q r : String}

namespace Consistent

theorem new : Consistent Faults.new := rfl

theorem kill (h : Consistent f) (id : String) : Consistent (f.kill id) := h

theorem revive (h : Consistent f) (id : String) : Consistent (f.revive id) := h

theorem partition (f : Faults) (groups : List (List String)) : Consistent (f.partition groups) :=
  rfl

theorem restore (f : Faults) (s : FaultState) : Consistent (f.restore s) := rfl

end Consistent

/-- **A copy that has been pushed is the table itself**, whatever was there before. -/
theorem restore_state (h : f.Consistent) (old : Faults) : old.restore f.state = f := by
  obtain ⟨dead, group, groups⟩ := f
  simp only [restore, state, Faults.partition, Finset.sort_toFinset, Faults.mk.injEq, true_and,
    and_true]
  exact h.symm

theorem check_eq_none_iff :
    f.check p q = none ↔ p ∉ f.dead ∧ q ∉ f.dead ∧ f.groupOf p = f.groupOf q := by
  unfold check isDead
  split_ifs <;> simp_all

theorem check_comm : f.check p q = none ↔ f.check q p = none := by
  rw [check_eq_none_iff, check_eq_none_iff]
  constructor
  · rintro ⟨hp, hq, hgroup⟩
    exact ⟨hq, hp, hgroup.symm⟩
  · rintro ⟨hq, hp, hgroup⟩
    exact ⟨hp, hq, hgroup.symm⟩

theorem check_trans (hpq : f.check p q = none) (hqr : f.check q r = none) : f.check p r = none := by
  rw [check_eq_none_iff] at hpq hqr ⊢
  exact ⟨hpq.1, hqr.2.1, hpq.2.2.trans hqr.2.2⟩

theorem check_self (h : p ∉ f.dead) : f.check p p = none := check_eq_none_iff.mpr ⟨h, h, rfl⟩

end Faults

/-! ## The replicas of a shard -/

namespace Topology

variable (cfg : Topology)

/-- The names of the replicas of a shard, in the order of `Engine.shards`. -/
def members (s : ℕ) : List String := (List.range cfg.nodesPerShard).map (nodeName s)

/-- `Quorum`. -/
def quorum : ℕ := cfg.nodesPerShard / 2 + 1

/-- The replicas of a shard have different names, because `ParseNode` tells them apart. -/
theorem nodup_members {s : ℕ} (hs : s < cfg.shards) : (cfg.members s).Nodup := by
  have hshard : (s : ℤ) ≤ maxInt := by
    have := cfg.shards_le
    unfold maxInt
    omega
  refine List.nodup_range.map_on fun i hi j hj hname => ?_
  have hparse : ∀ k ∈ List.range cfg.nodesPerShard, parseNode (nodeName s k) = some (s, k) := by
    intro k hk
    refine parseNode_nodeName hshard ?_
    have := cfg.nodesPerShard_le
    have := List.mem_range.mp hk
    unfold maxInt
    omega
  have hpair := (hparse i hi).symm.trans (hname ▸ hparse j hj)
  exact (Prod.mk.inj (Option.some.inj hpair)).2

/-- The quorum is a strict majority. -/
theorem length_members_lt (s : ℕ) : (cfg.members s).length < 2 * cfg.quorum := by
  rw [members, List.length_map, List.length_range, quorum]
  omega

end Topology

/-! ## The majority side of a shard -/

namespace Faults

variable (f : Faults) (members : List String)

/-- The replicas that `p` reaches, in the order of the shard. -/
def reach (p : String) : List String := members.filter fun q => f.check p q = none

/-- An entry of the map that `majorityGroup` builds: the live replicas of a group. -/
def side (g : ℤ) : List String := members.filter fun r => !f.isDead r && f.groupOf r == g

/-- The keys of the map. -/
def sideNumbers : List ℤ := ((members.filter fun r => !f.isDead r).map f.groupOf).dedup

/-- The comparison in the loop of `majorityGroup`. -/
def better (s best : List String) : Bool :=
  best.length < s.length ||
    (s.length == best.length && 0 < s.length && s.headD "" < best.headD "")

/-- The loop of `majorityGroup`, when it ranges over the map in this order. -/
def bestSide (order : List ℤ) : List String :=
  order.foldl (fun best g => if better (f.side members g) best then f.side members g else best) []

/-- `majorityGroup`. -/
def majorityGroup (quorum : ℕ) (order : List ℤ) : List String × Bool :=
  (f.bestSide members order, quorum ≤ (f.bestSide members order).length)

variable {f members} {p q : String} {g : ℤ} {order order' : List ℤ} {quorum : ℕ}

theorem mem_reach : q ∈ f.reach members p ↔ q ∈ members ∧ f.check p q = none := by
  simp [reach]

theorem mem_side : p ∈ f.side members g ↔ p ∈ members ∧ p ∉ f.dead ∧ f.groupOf p = g := by
  simp [side, isDead]

theorem mem_sideNumbers :
    g ∈ f.sideNumbers members ↔ ∃ p ∈ members, p ∉ f.dead ∧ f.groupOf p = g := by
  simp [sideNumbers, isDead, and_assoc]

/-- Who reaches each other reach the same replicas. -/
theorem reach_eq_reach (h : f.check p q = none) : f.reach members p = f.reach members q := by
  refine List.filter_congr fun r _ => ?_
  rw [decide_eq_decide]
  exact ⟨check_trans (check_comm.mp h), check_trans h⟩

/-- The side of a replica is what it reaches. -/
theorem side_groupOf (hlive : p ∉ f.dead) : f.side members (f.groupOf p) = f.reach members p := by
  refine List.filter_congr fun q _ => ?_
  rw [Bool.eq_iff_iff, Bool.and_eq_true, decide_eq_true_eq, check_eq_none_iff]
  simp only [isDead, Bool.not_eq_true', decide_eq_false_iff_not, beq_iff_eq]
  constructor
  · rintro ⟨hq, hgroup⟩
    exact ⟨hlive, hq, hgroup.symm⟩
  · rintro ⟨-, hq, hgroup⟩
    exact ⟨hq, hgroup.symm⟩

theorem side_eq_reach (hp : p ∈ f.side members g) : f.side members g = f.reach members p := by
  obtain ⟨-, hlive, rfl⟩ := mem_side.mp hp
  exact side_groupOf hlive

theorem side_ne_nil (hg : g ∈ f.sideNumbers members) : f.side members g ≠ [] := by
  obtain ⟨p, hp, hlive, hgroup⟩ := mem_sideNumbers.mp hg
  exact List.ne_nil_of_mem (mem_side.mpr ⟨hp, hlive, hgroup⟩)

/-- Longer sides are better, and of two that are as long the one whose first replica has the smaller
name. -/
def rank (s : List String) : ℕ ×ₗ Stringᵒᵈ := toLex (s.length, OrderDual.toDual (s.headD ""))

theorem better_iff {s best : List String} (hs : s ≠ []) :
    better s best = true ↔ rank best < rank s := by
  have hpos : 0 < s.length := List.length_pos_iff.mpr hs
  rw [rank, rank, Prod.Lex.toLex_lt_toLex]
  simp only [better, Bool.or_eq_true, Bool.and_eq_true, decide_eq_true_eq, beq_iff_eq, hpos,
    and_true, OrderDual.toDual_lt_toDual]
  rw [eq_comm]

/-- Two sides of the same rank are one. -/
theorem eq_of_rank (hg : g ∈ f.sideNumbers members) {g' : ℤ} (hg' : g' ∈ f.sideNumbers members)
    (h : rank (f.side members g) = rank (f.side members g')) :
    f.side members g = f.side members g' := by
  have hhead : (f.side members g).headD "" = (f.side members g').headD "" :=
    OrderDual.toDual.injective (Prod.ext_iff.mp (toLex_inj.mp h)).2
  have hmem : ∀ {g}, g ∈ f.sideNumbers members →
      (f.side members g).headD "" ∈ f.side members g := by
    intro g hg
    cases hside : f.side members g with
    | nil => exact absurd hside (side_ne_nil hg)
    | cons p rest => exact List.mem_cons_self
  rw [side_eq_reach (hmem hg), hhead, ← side_eq_reach (hmem hg')]

/-- The loop finds a side of the highest rank. -/
theorem bestSide_eq (horder : order.Perm (f.sideNumbers members)) :
    f.bestSide members order = (((order.map (f.side members)).argmax rank).getD []) := by
  have hne : ∀ g ∈ order, f.side members g ≠ [] := fun g hg => side_ne_nil (horder.subset hg)
  -- from the first group on the loop and `argmax` keep the same side
  have hloop : ∀ (order : List ℤ) (best : List String), (∀ g ∈ order, f.side members g ≠ []) →
      order.foldl
        (fun best g => if better (f.side members g) best then f.side members g else best) best =
      ((order.map (f.side members)).foldl
        (List.argAux fun s t => rank t < rank s) (some best)).getD [] := by
    intro order
    induction order with
    | nil => exact fun _ _ => rfl
    | cons g order ih =>
      intro best hne
      have hbetter : better (f.side members g) best = true ↔ rank best < rank (f.side members g) :=
        better_iff (hne g List.mem_cons_self)
      have hrest : ∀ g ∈ order, f.side members g ≠ [] := fun g hg =>
        hne g (List.mem_cons_of_mem _ hg)
      rw [List.foldl_cons, List.map_cons, List.foldl_cons, List.argAux]
      dsimp only
      by_cases hlt : rank best < rank (f.side members g)
      · rw [if_pos (hbetter.mpr hlt), if_pos hlt]
        exact ih _ hrest
      · rw [if_neg (mt hbetter.mp hlt), if_neg hlt]
        exact ih _ hrest
  unfold bestSide
  cases order with
  | nil => rfl
  | cons g order =>
    have hfirst : better (f.side members g) [] = true := by
      have hpos := List.length_pos_iff.mpr (hne g List.mem_cons_self)
      simp [better, hpos]
    rw [List.foldl_cons, if_pos hfirst, hloop order _ fun g hg => hne g (List.mem_cons_of_mem _ hg)]
    rfl

/-- No side has a higher rank, and unless all are dead it is one of them. -/
theorem bestSide_spec (horder : order.Perm (f.sideNumbers members)) :
    (f.sideNumbers members = [] ∧ f.bestSide members order = []) ∨
      ∃ g ∈ f.sideNumbers members, f.bestSide members order = f.side members g ∧
        ∀ g' ∈ f.sideNumbers members, rank (f.side members g') ≤ rank (f.side members g) := by
  rw [bestSide_eq horder]
  cases hmax : (order.map (f.side members)).argmax rank with
  | none =>
    rw [List.argmax_eq_none, List.map_eq_nil_iff] at hmax
    subst hmax
    exact Or.inl ⟨List.nil_perm.mp horder, rfl⟩
  | some s =>
    obtain ⟨g, hg, rfl⟩ := List.mem_map.mp (List.argmax_mem hmax)
    refine Or.inr ⟨g, horder.subset hg, rfl, fun g' hg' => ?_⟩
    exact List.le_of_mem_argmax (List.mem_map_of_mem (horder.symm.subset hg')) hmax

/-- Two sides that both have a majority are one. -/
theorem reach_eq_of_majority (hnodup : members.Nodup) (hquorum : members.length < 2 * quorum)
    (hp : quorum ≤ (f.reach members p).length) (hq : quorum ≤ (f.reach members q).length) :
    f.reach members p = f.reach members q := by
  have hcard : ∀ r, (f.reach members r).toFinset.card = (f.reach members r).length := fun r =>
    List.toFinset_card_of_nodup (hnodup.filter _)
  have hsub : ∀ r, (f.reach members r).toFinset ⊆ members.toFinset := fun r x hx => by
    rw [List.mem_toFinset] at hx ⊢
    exact (mem_reach.mp hx).1
  obtain ⟨r, hr⟩ := Finset.inter_nonempty_of_card_lt_card_add_card (hsub p) (hsub q) (by
    rw [hcard, hcard, List.toFinset_card_of_nodup hnodup]
    omega)
  rw [Finset.mem_inter, List.mem_toFinset, List.mem_toFinset] at hr
  rw [reach_eq_reach (mem_reach.mp hr.1).2, reach_eq_reach (mem_reach.mp hr.2).2]

section

variable (hnodup : members.Nodup) (hquorum : members.length < 2 * quorum)
  (horder : order.Perm (f.sideNumbers members))

include horder

/-- The best side is at least as large as what any replica reaches. -/
theorem length_reach_le_bestSide (hne : f.reach members p ≠ []) :
    (f.reach members p).length ≤ (f.bestSide members order).length := by
  obtain ⟨q, hq⟩ := List.exists_mem_of_ne_nil _ hne
  obtain ⟨hmem, hcheck⟩ := mem_reach.mp hq
  have hlive := (check_eq_none_iff.mp hcheck).2.1
  have hg : f.groupOf q ∈ f.sideNumbers members := mem_sideNumbers.mpr ⟨q, hmem, hlive, rfl⟩
  rcases bestSide_spec horder with ⟨hnil, -⟩ | ⟨g, -, hbest, hmax⟩
  · rw [hnil] at hg
    cases hg
  · rw [hbest, reach_eq_reach hcheck, ← side_groupOf hlive]
    exact (Prod.Lex.toLex_le_toLex.mp (hmax _ hg)).elim le_of_lt fun h => h.1.le

theorem bestSide_eq_reach (hne : f.bestSide members order ≠ []) :
    ∃ p ∈ members, f.bestSide members order = f.reach members p := by
  rcases bestSide_spec horder with ⟨-, hnil⟩ | ⟨g, hg, hbest, -⟩
  · exact absurd hnil hne
  · obtain ⟨p, hp, hlive, rfl⟩ := mem_sideNumbers.mp hg
    exact ⟨p, hp, hbest.trans (side_groupOf hlive)⟩

theorem bestSide_order {order' : List ℤ} (horder' : order'.Perm (f.sideNumbers members)) :
    f.bestSide members order' = f.bestSide members order := by
  rcases bestSide_spec horder with ⟨hnil, hbest⟩ | ⟨g, hg, hbest, hmax⟩
  · rcases bestSide_spec horder' with ⟨-, hbest'⟩ | ⟨g, hg, -, -⟩
    · rw [hbest, hbest']
    · rw [hnil] at hg
      cases hg
  · rcases bestSide_spec horder' with ⟨hnil, -⟩ | ⟨g', hg', hbest', hmax'⟩
    · rw [hnil] at hg
      cases hg
    · rw [hbest, hbest']
      exact eq_of_rank hg' hg (le_antisymm (hmax g' hg') (hmax' g hg))

include hnodup hquorum

theorem majorityGroup_of_majority (hp : quorum ≤ (f.reach members p).length) :
    f.majorityGroup members quorum order = (f.reach members p, true) := by
  have hpos : 0 < (f.reach members p).length := by omega
  have hle := length_reach_le_bestSide horder (List.ne_nil_of_length_pos hpos)
  obtain ⟨q, -, hbest⟩ := bestSide_eq_reach horder (List.ne_nil_of_length_pos (hpos.trans_le hle))
  have hq : quorum ≤ (f.reach members q).length := hbest ▸ hp.trans hle
  rw [majorityGroup, hbest, decide_eq_true hq, reach_eq_of_majority hnodup hquorum hq hp]

theorem majorityGroup_snd : (f.majorityGroup members quorum order).2 = true ↔
    ∃ p ∈ members, quorum ≤ (f.reach members p).length := by
  constructor
  · intro hok
    have hlength : quorum ≤ (f.bestSide members order).length := of_decide_eq_true hok
    have hpos : 0 < (f.bestSide members order).length := by omega
    obtain ⟨p, hp, hbest⟩ := bestSide_eq_reach horder (List.ne_nil_of_length_pos hpos)
    exact ⟨p, hp, hbest ▸ hlength⟩
  · rintro ⟨p, -, hp⟩
    rw [majorityGroup_of_majority hnodup hquorum horder hp]

/-- **The majority side of a shard.** It is found exactly if some replica reaches a majority, it is
then what any such replica reaches, and the order in which the groups are seen does not matter. -/
theorem majorityGroup_spec :
    ((f.majorityGroup members quorum order).2 = true ↔
      ∃ p ∈ members, quorum ≤ (f.reach members p).length) ∧
    (∀ p, quorum ≤ (f.reach members p).length →
      f.majorityGroup members quorum order = (f.reach members p, true)) ∧
    ∀ order', order'.Perm (f.sideNumbers members) →
      f.majorityGroup members quorum order' = f.majorityGroup members quorum order := by
  refine ⟨majorityGroup_snd hnodup hquorum horder, fun p hp => ?_, fun order' horder' => ?_⟩
  · exact majorityGroup_of_majority hnodup hquorum horder hp
  · rw [majorityGroup, majorityGroup, bestSide_order horder horder']

end

/-- The first of the three replicas of a shard is cut off from the others. -/
theorem majorityGroup_spec_three :
    let f := new.partition [["s0n0"], ["s0n1", "s0n2"]]
    f.majorityGroup (threeShards.members 0) threeShards.quorum [0, 1] =
        (["s0n1", "s0n2"], true) ∧
      f.majorityGroup (threeShards.members 0) threeShards.quorum [1, 0] =
        (["s0n1", "s0n2"], true) := by
  intro f
  have hfound : f.majorityGroup (threeShards.members 0) threeShards.quorum [0, 1] =
      (["s0n1", "s0n2"], true) := by
    decide +kernel
  have horder : [0, 1].Perm (f.sideNumbers (threeShards.members 0)) := by decide +kernel
  have hspec := majorityGroup_spec (threeShards.nodup_members (by decide))
    (threeShards.length_members_lt 0) horder
  exact ⟨hfound, (hspec.2.2 [1, 0] ((List.Perm.swap 0 1 []).trans horder)).trans hfound⟩

/-! ## The leader of a shard -/

/-- `NodeInfo`, as far as the engine decides by it; the ballot is the highest promised. -/
structure NodeInfo where
  role : Paxos.Role
  ballot : Paxos.Ballot
deriving DecidableEq

/-- The loop of `leaderOf`: the replica that claims to lead with the highest
ballot, the first of them. One that does not answer does not count. -/
def leaderAmong (info : String → Option NodeInfo) (group : List String) :
    Option (String × NodeInfo) :=
  (group.filterMap fun r => ((info r).filter (·.role = .leader)).map (r, ·)).argmax (·.2.ballot)

section

variable (f : Faults) (members : List String) (quorum : ℕ) (order : List ℤ)
  (info : String → Option NodeInfo)

def leaderOf : Option (String × NodeInfo) :=
  let (group, ok) := f.majorityGroup members quorum order
  if ok then leaderAmong info group else none

/-- The live replicas that claim to lead. -/
def claimants : List String :=
  members.filter fun r => (info r).any (·.role = .leader) && !f.isDead r

def settled : Bool :=
  let (group, ok) := f.majorityGroup members quorum order
  (f.claimants members info).all (fun r => ok && r ∈ group) &&
    (!ok || 1 ≤ (f.claimants members info).length)

/-- Whom `elect` tells to campaign. -/
def elect : Option String :=
  let (group, ok) := f.majorityGroup members quorum order
  if ok && (f.leaderOf members quorum order info).isNone then group.head? else none

end

/-- What the engine sees when it looks for the leader of a shard. -/
structure Look where
  faults : Faults
  order : List ℤ
  info : String → Option NodeInfo

/-- `leaderFor`: it fails at once without a majority, and otherwise looks again and again until the
deadline. -/
def leaderFor (s : ℕ) (members : List String) (quorum : ℕ) (first : Look) (looks : List Look) :
    Except String (String × NodeInfo) :=
  let (group, ok) := first.faults.majorityGroup members quorum first.order
  if ok then
    match looks.findSome? fun l => l.faults.leaderOf members quorum l.order l.info with
    | some found => .ok found
    | none => .error ("s" ++ toString s ++ ": no leader elected yet, try again")
  else
    .error ("s" ++ toString s ++ " cannot reach a majority (" ++ toString group.length ++ " of " ++
      toString members.length ++ " reachable, needs " ++ toString quorum ++ "): paxos: no quorum")

theorem mem_leaderAmong {info : String → Option NodeInfo} {group : List String} {r : String}
    {i : NodeInfo} (h : leaderAmong info group = some (r, i)) :
    r ∈ group ∧ info r = some i ∧ i.role = .leader ∧
      ∀ q ∈ group, ∀ j, info q = some j → j.role = .leader → j.ballot ≤ i.ballot := by
  have hmem : ∀ {q j}, (q, j) ∈ group.filterMap (fun r =>
      ((info r).filter (·.role = .leader)).map (r, ·)) ↔
        q ∈ group ∧ info q = some j ∧ j.role = .leader := by
    intro q j
    simp only [List.mem_filterMap, Option.map_eq_some_iff, Option.filter_eq_some_iff,
      decide_eq_true_eq, Prod.mk.injEq]
    constructor
    · rintro ⟨_, hq, _, ⟨hj, hrole⟩, rfl, rfl⟩
      exact ⟨hq, hj, hrole⟩
    · rintro ⟨hq, hj, hrole⟩
      exact ⟨q, hq, j, ⟨hj, hrole⟩, rfl, rfl⟩
  obtain ⟨hr, hi, hrole⟩ := hmem.mp (List.argmax_mem h)
  refine ⟨hr, hi, hrole, fun q hq j hj hlead => ?_⟩
  exact List.le_of_mem_argmax (f := fun x : String × NodeInfo => x.2.ballot)
    (hmem.mpr ⟨hq, hj, hlead⟩) h

theorem leaderAmong_eq_none {info : String → Option NodeInfo} {group : List String} :
    leaderAmong info group = none ↔
      ∀ r ∈ group, ∀ i, info r = some i → i.role ≠ .leader := by
  rw [leaderAmong, List.argmax_eq_none, List.filterMap_eq_nil_iff]
  refine forall₂_congr fun r _ => ?_
  cases info r <;> simp

section

variable {info : String → Option NodeInfo} (hnodup : members.Nodup)
  (hquorum : members.length < 2 * quorum) (horder : order.Perm (f.sideNumbers members))

theorem mem_claimants {r : String} : r ∈ f.claimants members info ↔
    r ∈ members ∧ r ∉ f.dead ∧ ∃ i, info r = some i ∧ i.role = .leader := by
  simp only [claimants, isDead, List.mem_filter, Bool.and_eq_true, Option.any_eq_true,
    decide_eq_true_eq, Bool.not_eq_true', decide_eq_false_iff_not]
  rw [and_comm (b := r ∉ f.dead)]

include hnodup hquorum

/-- The majority side has every replica that reaches a majority. -/
theorem mem_reach_of_majority (hp : quorum ≤ (f.reach members p).length) :
    q ∈ f.reach members p ↔ q ∈ members ∧ quorum ≤ (f.reach members q).length := by
  constructor
  · intro hq
    obtain ⟨hmem, hcheck⟩ := mem_reach.mp hq
    exact ⟨hmem, reach_eq_reach hcheck ▸ hp⟩
  · rintro ⟨hmem, hq⟩
    have hpos : 0 < (f.reach members q).length := by omega
    obtain ⟨r, hr⟩ := List.length_pos_iff_exists_mem.mp hpos
    have hlive : q ∉ f.dead := (check_eq_none_iff.mp (mem_reach.mp hr).2).1
    rw [reach_eq_of_majority hnodup hquorum hp hq]
    exact mem_reach.mpr ⟨hmem, check_self hlive⟩

include horder

theorem leaderOf_of_majority (hp : quorum ≤ (f.reach members p).length) :
    f.leaderOf members quorum order info = leaderAmong info (f.reach members p) := by
  rw [leaderOf, majorityGroup_of_majority hnodup hquorum horder hp]
  rfl

theorem majorityGroup_of_none (hnone : ∀ p ∈ members, ¬quorum ≤ (f.reach members p).length) :
    ∃ group, f.majorityGroup members quorum order = (group, false) := by
  refine ⟨_, Prod.ext rfl (Bool.eq_false_iff.mpr fun hok => ?_)⟩
  obtain ⟨p, hp, hreach⟩ := (majorityGroup_snd hnodup hquorum horder).mp hok
  exact hnone p hp hreach

/-- **Nobody is found only if nobody leads** who reaches a majority. -/
theorem leaderOf_eq_none : f.leaderOf members quorum order info = none ↔
    ∀ r ∈ members, quorum ≤ (f.reach members r).length →
      ∀ i, info r = some i → i.role ≠ .leader := by
  by_cases hmajority : ∃ p ∈ members, quorum ≤ (f.reach members p).length
  · obtain ⟨p, -, hp⟩ := hmajority
    rw [leaderOf_of_majority hnodup hquorum horder hp, leaderAmong_eq_none]
    have hside := fun r => mem_reach_of_majority (q := r) hnodup hquorum hp
    exact ⟨fun h r hr hq => h r ((hside r).mpr ⟨hr, hq⟩), fun h r hr =>
      h r ((hside r).mp hr).1 ((hside r).mp hr).2⟩
  · push Not at hmajority
    obtain ⟨group, hgroup⟩ := majorityGroup_of_none hnodup hquorum horder
      fun p hp => (hmajority p hp).not_ge
    rw [leaderOf, hgroup]
    exact ⟨fun _ r hr hq => absurd hq (hmajority r hr).not_ge, fun _ => rfl⟩

/-- **When a shard is settled**: every live replica that claims to lead reaches a majority, and if
there is a majority somewhere then a leader is found. -/
theorem settled_iff : f.settled members quorum order info = true ↔
    (∀ r ∈ f.claimants members info, quorum ≤ (f.reach members r).length) ∧
      ((∃ p ∈ members, quorum ≤ (f.reach members p).length) →
        f.leaderOf members quorum order info ≠ none) := by
  by_cases hmajority : ∃ p ∈ members, quorum ≤ (f.reach members p).length
  · obtain ⟨p, hp, hreach⟩ := hmajority
    have hside := fun r => mem_reach_of_majority (q := r) hnodup hquorum hreach
    have hsettled : f.settled members quorum order info = true ↔
        (∀ r ∈ f.claimants members info, r ∈ f.reach members p) ∧
          f.claimants members info ≠ [] := by
      rw [settled, majorityGroup_of_majority hnodup hquorum horder hreach]
      simp [Nat.one_le_iff_ne_zero]
    rw [hsettled]
    constructor
    · rintro ⟨hall, hne⟩
      obtain ⟨r, hr⟩ := List.exists_mem_of_ne_nil _ hne
      refine ⟨fun r hr => ((hside r).mp (hall r hr)).2, fun _ hnone => ?_⟩
      obtain ⟨hmem, -, i, hi, hrole⟩ := mem_claimants.mp hr
      exact (leaderOf_eq_none hnodup hquorum horder).mp hnone r hmem
        ((hside r).mp (hall r hr)).2 i hi hrole
    · rintro ⟨hall, hfound⟩
      refine ⟨fun r hr => (hside r).mpr ⟨(mem_claimants.mp hr).1, hall r hr⟩, fun hnil => ?_⟩
      refine hfound ⟨p, hp, hreach⟩ ((leaderOf_eq_none hnodup hquorum horder).mpr ?_)
      intro r hr hq i hi hrole
      have hlive := (check_eq_none_iff.mp (mem_reach.mp ((hside r).mpr ⟨hr, hq⟩)).2).2.1
      have hclaim : r ∈ f.claimants members info := mem_claimants.mpr ⟨hr, hlive, i, hi, hrole⟩
      rw [hnil] at hclaim
      cases hclaim
  · have hnone : ∀ p ∈ members, ¬quorum ≤ (f.reach members p).length := fun p hp hq =>
      hmajority ⟨p, hp, hq⟩
    obtain ⟨group, hgroup⟩ := majorityGroup_of_none hnodup hquorum horder hnone
    rw [settled, hgroup]
    simp only [Bool.false_and, List.all_eq_true, Bool.false_eq_true, Bool.not_false, Bool.true_or,
      Bool.and_true]
    exact ⟨fun h => ⟨fun r hr => (h r hr).elim, fun hex => absurd hex hmajority⟩,
      fun h r hr => hnone r (mem_claimants.mp hr).1 (h.1 r hr)⟩

/-- Only a replica that reaches a majority is told to campaign, and only if none that does leads. -/
theorem elect_eq_some {r : String} (h : f.elect members quorum order info = some r) :
    r ∈ members ∧ quorum ≤ (f.reach members r).length ∧
      f.leaderOf members quorum order info = none := by
  by_cases hmajority : ∃ p ∈ members, quorum ≤ (f.reach members p).length
  · obtain ⟨p, -, hp⟩ := hmajority
    rw [elect, majorityGroup_of_majority hnodup hquorum horder hp] at h
    obtain ⟨hnone, hhead⟩ := Option.ite_none_right_eq_some.mp h
    obtain ⟨hmem, hr⟩ := (mem_reach_of_majority hnodup hquorum hp).mp (List.mem_of_mem_head? hhead)
    exact ⟨hmem, hr, Option.isNone_iff_eq_none.mp hnone⟩
  · have hnone : ∀ p ∈ members, ¬quorum ≤ (f.reach members p).length := fun p hp hq =>
      hmajority ⟨p, hp, hq⟩
    obtain ⟨group, hgroup⟩ := majorityGroup_of_none hnodup hquorum horder hnone
    rw [elect, hgroup] at h
    cases h

/-- **Whom `leaderOf` finds**: a live replica that claims to lead and reaches a majority, with the
highest ballot of those that claim to lead on its side. -/
theorem leaderOf_eq_some {r : String} {i : NodeInfo}
    (h : f.leaderOf members quorum order info = some (r, i)) :
    r ∈ members ∧ r ∉ f.dead ∧ info r = some i ∧ i.role = .leader ∧
      quorum ≤ (f.reach members r).length ∧
      ∀ q ∈ f.reach members r, ∀ j, info q = some j → j.role = .leader → j.ballot ≤ i.ballot := by
  by_cases hmajority : ∃ p ∈ members, quorum ≤ (f.reach members p).length
  · obtain ⟨p, -, hp⟩ := hmajority
    rw [leaderOf_of_majority hnodup hquorum horder hp] at h
    obtain ⟨hr, hi, hrole, hmax⟩ := mem_leaderAmong h
    obtain ⟨hmem, hcheck⟩ := mem_reach.mp hr
    rw [reach_eq_reach hcheck] at hp hmax
    exact ⟨hmem, (check_eq_none_iff.mp hcheck).2.1, hi, hrole, hp, hmax⟩
  · have hnone : ∀ p ∈ members, ¬quorum ≤ (f.reach members p).length := fun p hp hq =>
      hmajority ⟨p, hp, hq⟩
    obtain ⟨group, hgroup⟩ := majorityGroup_of_none hnodup hquorum horder hnone
    rw [leaderOf, hgroup] at h
    cases h

omit horder in
/-- **Where a command is sent.** The replica that `leaderFor` finds was alive when the engine
looked, claimed to lead, reached a majority and had the highest ballot of those that claim to lead
there. If it finds none, no replica reached a majority at first, or none that did led at any
look. -/
theorem leaderFor_spec {s : ℕ} {first : Look} {looks : List Look}
    (hlooks : ∀ l ∈ first :: looks, l.order.Perm (l.faults.sideNumbers members)) :
    match leaderFor s members quorum first looks with
    | .ok (r, i) => ∃ l ∈ looks,
        r ∈ members ∧ r ∉ l.faults.dead ∧ l.info r = some i ∧ i.role = .leader ∧
        quorum ≤ (l.faults.reach members r).length ∧
        ∀ q ∈ l.faults.reach members r, ∀ j, l.info q = some j → j.role = .leader →
          j.ballot ≤ i.ballot
    | .error _ =>
        (∀ p ∈ members, (first.faults.reach members p).length < quorum) ∨
        ∀ l ∈ looks, ∀ r ∈ members, quorum ≤ (l.faults.reach members r).length →
          ∀ i, l.info r = some i → i.role ≠ .leader := by
  have hfirst := hlooks first List.mem_cons_self
  by_cases hmajority : ∃ p ∈ members, quorum ≤ (first.faults.reach members p).length
  · obtain ⟨p, -, hp⟩ := hmajority
    rw [leaderFor, majorityGroup_of_majority hnodup hquorum hfirst hp]
    cases hfind : looks.findSome? fun l => l.faults.leaderOf members quorum l.order l.info with
    | some found =>
      obtain ⟨l, hl, hfound⟩ := List.exists_of_findSome?_eq_some hfind
      obtain ⟨r, i⟩ := found
      have horder := hlooks l (List.mem_cons_of_mem _ hl)
      exact ⟨l, hl, leaderOf_eq_some hnodup hquorum horder hfound⟩
    | none =>
      refine Or.inr fun l hl => ?_
      have horder := hlooks l (List.mem_cons_of_mem _ hl)
      have hnone := List.findSome?_eq_none_iff.mp hfind l hl
      exact (leaderOf_eq_none hnodup hquorum horder).mp hnone
  · have hnone : ∀ p ∈ members, ¬quorum ≤ (first.faults.reach members p).length := fun p hp hq =>
      hmajority ⟨p, hp, hq⟩
    obtain ⟨group, hgroup⟩ := majorityGroup_of_none hnodup hquorum hfirst hnone
    rw [leaderFor, hgroup]
    exact Or.inl fun p hp => not_le.mp (hnone p hp)

end

/-- Two replicas say that they lead, and the one with the higher ballot is cut off. -/
def twoLeaders : Look where
  faults := new.partition [["s0n0"], ["s0n1", "s0n2"]]
  order := [0, 1]
  info r := if r = "s0n0" then some ⟨.leader, ⟨7, "s0n0"⟩⟩ else
    if r = "s0n2" then some ⟨.leader, ⟨5, "s0n2"⟩⟩ else none

theorem leaderFor_spec_twoLeaders :
    (leaderFor 0 (threeShards.members 0) threeShards.quorum twoLeaders [twoLeaders]).toOption.map
        (·.1) = some "s0n2" ∧
      threeShards.quorum ≤
        (twoLeaders.faults.reach (threeShards.members 0) "s0n2").length := by
  have hlooks : ∀ l ∈ [twoLeaders, twoLeaders],
      l.order.Perm (l.faults.sideNumbers (threeShards.members 0)) := by
    simp only [List.forall_mem_cons, List.not_mem_nil, false_implies, implies_true, and_true]
    decide +kernel
  have hfound : leaderFor 0 (threeShards.members 0) threeShards.quorum twoLeaders [twoLeaders] =
      .ok ("s0n2", ⟨.leader, ⟨5, "s0n2"⟩⟩) := by decide +kernel
  have hspec := leaderFor_spec (s := 0) (threeShards.nodup_members (by decide))
    (threeShards.length_members_lt 0) hlooks
  rw [hfound] at hspec
  obtain ⟨l, hl, -, -, -, -, hreach, -⟩ := hspec
  rw [List.mem_singleton.mp hl] at hreach
  exact ⟨by rw [hfound]; rfl, hreach⟩

/-- The shard is not settled while the one that is cut off says that it leads. -/
theorem settled_iff_twoLeaders :
    twoLeaders.faults.settled (threeShards.members 0) threeShards.quorum [0, 1]
      twoLeaders.info = false := by
  have horder : [0, 1].Perm (twoLeaders.faults.sideNumbers (threeShards.members 0)) := by
    decide +kernel
  rw [Bool.eq_false_iff, Ne, settled_iff (threeShards.nodup_members (by decide))
    (threeShards.length_members_lt 0) horder]
  rintro ⟨hall, -⟩
  exact absurd (hall "s0n0" (by decide +kernel)) (by decide +kernel)

end Faults

end PaxosPayments.ControlPlane
