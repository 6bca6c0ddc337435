import Nodeakt.Clustering.Node

/-! What a stopped node does (`clustering.ts`, `kv/replication.ts`).

    A node the resolver has stopped refuses its clients. Requests of peers go to the router without
    a look at the verdict, and a write or a gather begun before the verdict goes on after it.
    `stopped_node_idle`: as long as no request reaches a stopped node and nothing is under way when
    it stops, it commits nothing under its own timestamp and answers no read as the primary. -/

namespace Nodeakt.Clustering
open Schemes Nodeakt.Kv List

namespace Cluster

/-- Everything the node did as a primary it did while serving. -/
def Lawful (c : Cluster) : Prop := ∀ act ∈ c.acts, act.2 = true

instance (c : Cluster) : Decidable c.Lawful := inferInstanceAs (Decidable (∀ act ∈ c.acts, act.2 = true))

/-- No request for a write or a read reaches a stopped node, and none of its own is under way when a
    view stops it. -/
def Gated (c : Cluster) : NodeEvent → Prop
  | .view members _ =>
    c.resolver.survives (members.map Kv.ClusterMember.name).toFinset c.lastStable = false →
      c.pipeline = [] ∧ ∀ pending ∈ c.gathers, pending.primary = false
  | .writeRequest _ => c.serving = true
  | .readRequest .. => c.serving = true
  | _ => True

instance (c : Cluster) (e : NodeEvent) : Decidable (c.Gated e) := by
  rcases e <;> dsimp only [Gated] <;> infer_instance

/-- A stopped node has nothing under way. -/
structure Quiet (c : Cluster) : Prop where
  lawful : c.Lawful
  idle : c.serving = false → c.pipeline = [] ∧ ∀ pending ∈ c.gathers, pending.primary = false

/-- Neither the node's acts nor what it has under way changed. -/
structure SameWork (c next : Cluster) : Prop where
  acts : next.acts = c.acts
  pipeline : next.pipeline = c.pipeline
  gathers : next.gathers = c.gathers

variable {c next : Cluster} {e : NodeEvent}

theorem Progress.sameWork (h : c.Progress next) : c.SameWork next := by
  cases h with
  | idle | install => exact ⟨rfl, rfl, rfl⟩

theorem Quiet.progress (h : c.Quiet) (hp : c.Progress next) : next.Quiet := by
  cases hp with
  | idle | install => exact { h with }

/-- A serving node is free to do anything, if its acts are noted as a serving node's. -/
theorem Quiet.of_serving (h : next.Lawful) (hserving : next.serving = true) : next.Quiet :=
  ⟨h, fun hstopped => by rw [hserving] at hstopped; cases hstopped⟩

/-- A node with a write queued serves. -/
theorem Quiet.serving_of_pipeline (h : c.Quiet) {op : WriteOp} (hop : op ∈ c.pipeline) :
    c.serving = true := by
  by_contra hstopped
  rw [(h.idle (Bool.not_eq_true _ ▸ hstopped)).1] at hop
  cases hop

/-- A node that gathers as a primary serves. -/
theorem Quiet.serving_of_gather (h : c.Quiet) {pending : ReadGather} (hmem : pending ∈ c.gathers)
    (hprimary : pending.primary = true) : c.serving = true := by
  by_contra hstopped
  rw [(h.idle (Bool.not_eq_true _ ▸ hstopped)).2 pending hmem] at hprimary
  cases hprimary

theorem Lawful.act (h : c.Lawful) (hserving : c.serving = true) (act : PrimaryAct) :
    (c.act act).Lawful := by
  intro noted hnoted
  rcases mem_append.mp hnoted with hold | hnew
  · exact h noted hold
  · rw [mem_singleton.mp hnew]
    exact hserving

theorem Lawful.servePrimaryRead (h : c.Lawful) (hserving : c.serving = true) (key : JsString)
    (nowMs : Kv.Millis) : (c.servePrimaryRead key nowMs).Lawful := by
  unfold Cluster.servePrimaryRead
  split
  · exact h
  · split
    · exact h
    · exact h.act hserving _

theorem serving_servePrimaryRead (c : Cluster) (key : JsString) (nowMs : Kv.Millis) :
    (c.servePrimaryRead key nowMs).serving = c.serving := by
  obtain ⟨_, _, _, _, _, h⟩ := storeOnly_servePrimaryRead c key nowMs
  rw [h]

/-- A view change keeps a node quiet: one that stops has nothing under way. -/
theorem Quiet.view (h : c.Quiet) {members : List Kv.ClusterMember} {nowMs : Kv.Millis}
    (hgated : c.Gated (.view members nowMs)) :
    (({ c with view := members } : Cluster).onView nowMs).Quiet := by
  have hwork : c.SameWork (({ c with view := members } : Cluster).onView nowMs) :=
    have hqueued := (progress_rebalance ((({ c with view := members } : Cluster).applyResolver
      nowMs).emitMembershipEvents) true).sameWork
    ⟨hqueued.acts, hqueued.pipeline, hqueued.gathers⟩
  obtain ⟨-, -, -, hserving⟩ := onView_verdict { c with view := members } nowMs
  refine ⟨fun act hact => h.lawful act (hwork.acts ▸ hact), fun hstopped => ?_⟩
  rw [hwork.pipeline, hwork.gathers]
  exact hgated (hserving.symm.trans hstopped)

theorem Quiet.step (h : c.Quiet) (hgated : c.Gated e) (hstep : c.step e = some next) :
    next.Quiet := by
  cases e with
  | view members nowMs =>
    cases hstep
    exact h.view hgated
  | write op =>
    cases hstep
    unfold Cluster.write
    split_ifs with hserving
    · exact h
    · split
      · exact .of_serving h.lawful (by simpa using hserving)
      · exact h
  | writeRequest op =>
    cases hstep
    unfold Cluster.serveWrite
    split
    · exact .of_serving h.lawful hgated
    · exact h
  | applied index nowMs physical =>
    obtain ⟨op, hop, hstep⟩ := Option.bind_eq_some_iff.mp hstep
    obtain ⟨-, rfl⟩ := of_guarded hstep
    have hserving := h.serving_of_pipeline (mem_of_getElem? hop)
    unfold Cluster.runWrite
    dsimp only
    split
    · exact .of_serving (Lawful.act (c := { c with
        engine := (c.engine.write op nowMs physical).2, pipeline := c.pipeline.eraseIdx index })
        h.lawful hserving _) hserving
    · exact .of_serving h.lawful hserving
  | read key nowMs =>
    cases hstep
    unfold Cluster.read
    split_ifs with hserving
    · exact h
    · have hserving : c.serving = true := by simpa using hserving
      split
      · exact .of_serving (h.lawful.servePrimaryRead hserving key nowMs)
          ((serving_servePrimaryRead ..).trans hserving)
      · exact .of_serving h.lawful hserving
      · exact h
  | readRequest key nowMs =>
    cases hstep
    exact .of_serving (h.lawful.servePrimaryRead hgated key nowMs)
      ((serving_servePrimaryRead ..).trans hgated)
  | gathered index answers nowMs =>
    obtain ⟨pending, hpending, rfl⟩ := Option.map_eq_some_iff.mp hstep
    have hmem := mem_of_getElem? hpending
    unfold Cluster.answerGather
    dsimp only
    split_ifs with hprimary
    · have hserving := h.serving_of_gather hmem hprimary
      exact .of_serving (Lawful.act (c := { c with gathers := _ }) h.lawful hserving _) hserving
    · refine ⟨h.lawful, fun hstopped => ?_⟩
      obtain ⟨hpipeline, hgathers⟩ := h.idle hstopped
      exact ⟨hpipeline, fun other hother => hgathers other (mem_of_mem_eraseIdx hother)⟩
  | quiet | backstop =>
    obtain ⟨-, rfl⟩ := of_guarded hstep
    exact { h with }
  | tick =>
    cases hstep
    exact h.progress (progress_rebalance c false)
  | table sender pushed =>
    cases hstep
    exact h.progress (progress_serveTable c sender pushed)
  | rebalance =>
    simp only [Cluster.step] at hstep
    split at hstep
    · cases hstep
      exact h.progress (.of_moved c.coordinator c.pushing _ (progress_rebalanceOnce _ _))
    · cases hstep
  | pushed responses =>
    obtain ⟨push, -, rfl⟩ := Option.map_eq_some_iff.mp hstep
    exact h.progress (progress_settlePush c push responses)
  | recovery e =>
    cases e with
    | table live table ring => cases hstep
    | pulled | rejected | settled =>
      obtain ⟨recovery, -, rfl⟩ := Option.map_eq_some_iff.mp hstep
      exact { h with }
  | recovered index =>
    obtain ⟨claimed, -, rfl⟩ := Option.map_eq_some_iff.mp hstep
    exact { h with }
  | replicate | fragmentPush | sweep | handedOff =>
    cases hstep
    exact { h with }

/-- A node of three that keeps the majority, up to its first table and a write of its own. -/
def settled : List NodeEvent :=
  [.view [⟨[65], false⟩, ⟨[66], false⟩, ⟨[67], false⟩] 0, .quiet, .rebalance,
    .table [65] ⟨1, [[[66]]], by decide⟩, .write (.put [1] [7] .none none), .applied 0 0 0]

end Cluster

end Nodeakt.Clustering
