import Nodeakt.Clustering.Node

/-! Successive splits of a cluster (`clustering.ts`, `kv/resolver.ts`).

    Every node weighs the members it reaches against a baseline of its own: the last view that held
    through a quiet window while it served. A serving group promotes a smaller baseline, a stopped
    one keeps the old, so after a second split verdicts are taken against different denominators and
    two groups may serve. `one_authority`: as long as nodes that a change puts apart have the same
    baseline, all serving nodes are in one group. -/

namespace Nodeakt.Clustering
open Schemes Nodeakt.Kv Cluster List Function

/-- The nodes of a cluster, oldest first, and the group the network puts each name in. -/
structure SplitWorld where
  ages : List Kv.ClusterMember
  group : JsString → ℕ
  nodes : JsString → Cluster

/-- The network changes, every node seeing exactly its group afterwards; or something else happens
    at a node. -/
inductive SplitEvent where
  | change (group : JsString → ℕ) (nowMs : Kv.Millis)
  | node (name : JsString) (e : NodeEvent)

namespace SplitWorld

/-- What a node sees of the cluster when the network has these groups. -/
def members (w : SplitWorld) (group : JsString → ℕ) (name : JsString) : List Kv.ClusterMember :=
  w.ages.filter (fun member => group member.name = group name)

/-- A node after a change of the network; a view that is the same is not announced. -/
def observe (w : SplitWorld) (group : JsString → ℕ) (nowMs : Kv.Millis) (name : JsString) : Cluster :=
  if w.members group name = (w.nodes name).view then w.nodes name
  else ({ w.nodes name with view := w.members group name } : Cluster).onView nowMs

/-- One event. -/
def step (w : SplitWorld) : SplitEvent → Option SplitWorld
  | .change group nowMs => some { w with group := group, nodes := w.observe group nowMs }
  | .node name e =>
    if name ∈ w.ages.map Kv.ClusterMember.name ∧ e.isView = false then
      ((w.nodes name).step e).map (fun node => { w with nodes := Function.update w.nodes name node })
    else none

/-- Every node serves in one network, with all of them, oldest first, as its baseline. -/
structure Formed (w : SplitWorld) : Prop where
  whole : ∀ a b, w.group a = w.group b
  enabled : ∀ member ∈ w.ages, 1 < (w.nodes member.name).resolver.minimumMemberQuorum
  view : ∀ member ∈ w.ages, (w.nodes member.name).view = w.ages
  baseline : ∀ member ∈ w.ages, (w.nodes member.name).lastStable = w.ages.map Kv.ClusterMember.name
  serving : ∀ member ∈ w.ages, (w.nodes member.name).serving = true

/-- All serving nodes are in one group. -/
def OneAuthority (w : SplitWorld) : Prop :=
  ∀ a ∈ w.ages, ∀ b ∈ w.ages, (w.nodes a.name).serving = true → (w.nodes b.name).serving = true →
    w.group a.name = w.group b.name

/-- Nodes that a change of the network puts apart have the same baseline. -/
def Common (w : SplitWorld) : SplitEvent → Prop
  | .change group _ => ∀ a ∈ w.ages, ∀ b ∈ w.ages, group a.name ≠ group b.name →
      (w.nodes a.name).lastStable = (w.nodes b.name).lastStable
  | .node .. => True

instance (w : SplitWorld) (e) : Decidable (w.Common e) := by
  rcases e <;> dsimp only [Common] <;> infer_instance

/-- A node sees its group, and serves exactly when the verdict on that view is to survive. -/
structure Upright (w : SplitWorld) (node : Cluster) (name : JsString) : Prop where
  enabled : 1 < node.resolver.minimumMemberQuorum
  view : node.view = w.members w.group name
  baseline : node.lastStable ≠ []
  verdict : node.serving = node.survives

/-- Every node is upright, and one group serves. -/
structure Sound (w : SplitWorld) : Prop where
  upright : ∀ member ∈ w.ages, w.Upright (w.nodes member.name) member.name
  one : w.OneAuthority

variable {w next : SplitWorld}

theorem Formed.sound (h : w.Formed) : w.Sound := by
  refine ⟨fun member hm => ⟨h.enabled member hm, ?_, ?_, ?_⟩, fun a _ b _ _ _ => h.whole _ _⟩
  · rw [h.view member hm, members, filter_eq_self.mpr]
    exact fun other _ => decide_eq_true (h.whole _ _)
  · rw [h.baseline member hm]
    exact ne_nil_of_mem (mem_map_of_mem hm)
  · rw [h.serving member hm, survives, h.baseline member hm, memberNames, h.view member hm]
    exact (KeepMajorityResolver.survives_of_reaches_all fun name hname =>
      mem_toFinset.mpr hname).symm

/-- A name both of two nodes see puts the two in one group. -/
theorem group_eq_of_mem {group : JsString → ℕ} {a b name : JsString}
    (ha : name ∈ (w.members group a).map Kv.ClusterMember.name)
    (hb : name ∈ (w.members group b).map Kv.ClusterMember.name) : group a = group b := by
  have hsame : ∀ other, name ∈ (w.members group other).map Kv.ClusterMember.name →
      group name = group other := by
    intro other hname
    obtain ⟨member, hmember, rfl⟩ := mem_map.mp hname
    exact of_decide_eq_true (mem_filter.mp hmember).2
  exact (hsame a ha).symm.trans (hsame b hb)

/-- Upright nodes in different groups with one baseline do not both serve. -/
theorem Upright.alone {node other : Cluster} {a b : JsString} (ha : w.Upright node a)
    (hb : w.Upright other b) (hapart : w.group a ≠ w.group b)
    (hcommon : node.lastStable = other.lastStable) (hserving : node.serving = true) :
    other.serving = false := by
  rw [ha.verdict] at hserving
  rw [hb.verdict, survives, ← hcommon]
  refine KeepMajorityResolver.not_both_survive ha.enabled hb.enabled ha.baseline ?_ hserving
  intro name _ hleft hright
  rw [mem_toFinset, memberNames, ha.view] at hleft
  rw [mem_toFinset, memberNames, hb.view] at hright
  exact hapart (group_eq_of_mem hleft hright)

/-- After a change of the network a node sees its new group, with the baseline it had. -/
theorem Upright.observe {name : JsString} (h : w.Upright (w.nodes name) name) (group : JsString → ℕ)
    (nowMs : Kv.Millis) :
    Upright { w with group := group, nodes := w.observe group nowMs } (w.observe group nowMs name)
        name ∧ (w.observe group nowMs name).lastStable = (w.nodes name).lastStable := by
  unfold SplitWorld.observe
  split_ifs with hsame
  · exact ⟨⟨h.enabled, hsame.symm, h.baseline, h.verdict⟩, rfl⟩
  · obtain ⟨hresolver, hview, hstable, hserving⟩ :=
      onView_verdict { w.nodes name with view := w.members group name } nowMs
    refine ⟨⟨hresolver ▸ h.enabled, hview, hstable ▸ h.baseline, ?_⟩, hstable⟩
    rw [hserving, survives, survives, memberNames, memberNames, hresolver, hview, hstable]

theorem Sound.change (h : w.Sound) {group : JsString → ℕ} {nowMs : Kv.Millis}
    (hcommon : w.Common (.change group nowMs)) :
    Sound { w with group := group, nodes := w.observe group nowMs } := by
  have hupright := fun (member : Kv.ClusterMember) (hm : member ∈ w.ages) =>
    (h.upright member hm).observe group nowMs
  refine ⟨fun member hm => (hupright member hm).1, fun a ha b hb hserving hserving' => ?_⟩
  by_contra hapart
  have hbase : (w.observe group nowMs a.name).lastStable =
      (w.observe group nowMs b.name).lastStable := by
    rw [(hupright a ha).2, (hupright b hb).2, hcommon a ha b hb hapart]
  have hstopped := (hupright a ha).1.alone (hupright b hb).1 hapart hbase hserving
  rw [hserving'] at hstopped
  cases hstopped

/-- An event at an upright node leaves it upright, serving or not as before. -/
theorem Upright.step {member : Kv.ClusterMember} (hmember : member ∈ w.ages) {node after : Cluster}
    (h : w.Upright node member.name) {e : NodeEvent} (hview : e.isView = false)
    (hstep : node.step e = some after) :
    w.Upright after member.name ∧ after.serving = node.serving := by
  cases hquiet : e.isQuiet with
  | false =>
    have hsame := sameVerdict_of_step hview hquiet hstep
    exact ⟨⟨hsame.resolver ▸ h.enabled, hsame.view.trans h.view, hsame.lastStable ▸ h.baseline,
      by rw [hsame.serving, hsame.survives_eq, h.verdict]⟩, hsame.serving⟩
  | true =>
    obtain rfl : e = .quiet := by
      cases e <;> first | rfl | cases hquiet
    obtain ⟨-, rfl⟩ := of_guarded hstep
    refine ⟨⟨h.enabled, h.view, ?_, ?_⟩, rfl⟩
    · have hself : member.name ∈ node.memberNames := by
        rw [memberNames, h.view]
        exact mem_map_of_mem (mem_filter.mpr ⟨hmember, decide_eq_true rfl⟩)
      simp only [promoteStable]
      split
      · exact ne_nil_of_mem hself
      · exact h.baseline
    · -- a group that serves reaches the whole of the baseline it promotes
      cases hserving : node.serving with
      | true =>
        have hall := @KeepMajorityResolver.survives_of_reaches_all node.resolver
          node.memberNames.toFinset node.memberNames fun _ hname => mem_toFinset.mpr hname
        simpa [promoteStable, survives, memberNames, hserving] using hall.symm
      | false =>
        have hverdict := h.verdict
        rw [hserving] at hverdict
        simpa [promoteStable, survives, memberNames, hserving] using hverdict

theorem Sound.node (h : w.Sound) {member : Kv.ClusterMember} (hmember : member ∈ w.ages)
    {e : NodeEvent} {after : Cluster} (hview : e.isView = false)
    (hstep : (w.nodes member.name).step e = some after) :
    Sound { w with nodes := update w.nodes member.name after } := by
  obtain ⟨hafter, hserving⟩ := (h.upright member hmember).step hmember hview hstep
  have hsame : ∀ name, (update w.nodes member.name after name).serving =
      (w.nodes name).serving := by
    intro name
    by_cases hname : name = member.name
    · subst hname
      rw [update_self, hserving]
    · rw [update_of_ne hname]
  constructor
  · intro other hother
    by_cases hname : other.name = member.name
    · simp only [hname, update_self]
      exact ⟨hafter.enabled, hafter.view, hafter.baseline, hafter.verdict⟩
    · simp only [update_of_ne hname]
      have hold := h.upright other hother
      exact ⟨hold.enabled, hold.view, hold.baseline, hold.verdict⟩
  · intro a ha b hb hservinga hservingb
    exact h.one a ha b hb ((hsame a.name).symm.trans hservinga) ((hsame b.name).symm.trans hservingb)

theorem Sound.step (h : w.Sound) {e : SplitEvent} (hcommon : w.Common e)
    (hstep : w.step e = some next) : next.Sound := by
  cases e with
  | change group nowMs =>
    cases hstep
    exact h.change hcommon
  | node name e =>
    obtain ⟨⟨hname, hview⟩, hstep⟩ := Option.ite_none_right_eq_some.mp hstep
    obtain ⟨member, hmember, rfl⟩ := mem_map.mp hname
    obtain ⟨after, hafter, rfl⟩ := Option.map_eq_some_iff.mp hstep
    exact h.node hmember hview hafter

/-- From a formed cluster, as long as nodes that a change of the network puts apart have the same
    baseline, all serving nodes are in one group. -/
theorem one_authority {start : SplitWorld} (hformed : start.Formed) {es : List SplitEvent}
    (hcommon : Meets SplitWorld.step Common start es) (hrun : w ∈ run SplitWorld.step start es) :
    w.OneAuthority :=
  (run_preserves (fun _ _ _ h hc hs => h.step hc hs) hformed.sound hcommon hrun).one

instance (w : SplitWorld) : Decidable w.OneAuthority :=
  inferInstanceAs (Decidable (∀ a ∈ w.ages, ∀ b ∈ w.ages, (w.nodes a.name).serving = true →
    (w.nodes b.name).serving = true → w.group a.name = w.group b.name))

/-- A formed cluster of the nodes with these names. -/
def form (names : List JsString) : SplitWorld where
  ages := names.map (⟨·, false⟩)
  group := fun _ => 0
  nodes := fun name =>
    { Cluster.create name 1 Nat.one_pos 3 2 ⟨2, by decide⟩ with
      view := names.map (⟨·, false⟩)
      lastStable := names
      previousMembers := names
      stableTimer := true }

theorem form_formed (names : List JsString) : (form names).Formed := by
  refine ⟨fun _ _ => rfl, fun _ _ => ?_, fun _ _ => rfl, fun _ _ => ?_, fun _ _ => rfl⟩
  · exact Nat.lt_succ_self 1
  · simp [form, comp_def]

/-- The network falls into the nodes of `left` and the others. -/
def splitOff (left : List JsString) : SplitEvent :=
  .change (fun name => if name ∈ left then 0 else 1) 0

/-- Five nodes split, heal, settle and split again along another line. -/
theorem healed_cluster_splits_again : ∃ w ∈ run SplitWorld.step (form [[1], [2], [3], [4], [5]])
        ([splitOff [[1], [2], [3]], .node [1] .quiet, splitOff []] ++
          [[1], [2], [3], [4], [5]].map (.node · .quiet) ++ [splitOff [[1], [2]]]),
      (w.nodes [1]).serving = false ∧ (w.nodes [5]).serving = true ∧ w.OneAuthority := by
  refine ends_imp (P := fun w => (w.nodes [1]).serving = false ∧ (w.nodes [5]).serving = true)
    (by decide +kernel) ?_
  rintro w hrun ⟨hstopped, hserving⟩
  exact ⟨hstopped, hserving,
    one_authority (form_formed [[1], [2], [3], [4], [5]]) (by decide +kernel) hrun⟩

/-- Three of five nodes promote themselves, then one of them joins the other two: two of the three
    keep serving, and so do the two that held on to the baseline of five. -/
theorem two_groups_serve : ∃ w ∈ run SplitWorld.step (form [[1], [2], [3], [4], [5]])
        [splitOff [[1], [2], [3]], .node [1] .quiet, .node [2] .quiet, .node [3] .quiet,
          splitOff [[1], [2]]],
      (form [[1], [2], [3], [4], [5]]).Formed ∧ ¬w.OneAuthority := by
  refine ends_imp (P := fun w => ¬w.OneAuthority) (by decide +kernel) ?_
  intro w hrun hboth
  exact ⟨form_formed [[1], [2], [3], [4], [5]], hboth⟩

end SplitWorld

end Nodeakt.Clustering
