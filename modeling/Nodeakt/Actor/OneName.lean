import Nodeakt.Actor.Hierarchy

/-! One living actor per name, and children that stop with their parent.

    Between the look for the name and the entry into the tree a spawn waits. `Separate` keeps other
    spawns of the name, and the shutdown of the parent that asks for its children, out of that time,
    and a spawn of the system away from a guardian that has asked; `Sound` is what the tree then
    keeps, and `one_actor_per_name` what follows for every run. -/

namespace Nodeakt.Actor
open Schemes Option

namespace Hierarchy

variable {ν : Type} [DecidableEq ν] {h : Hierarchy ν}
variable {parent pid : ℕ} {name : ν}

/-! ### The condition -/

/-- A spawn of the name under the parent is pending. -/
def Pending (h : Hierarchy ν) (parent : ℕ) (name : ν) (pid : ℕ) : Prop :=
  h.stage pid = .pending ∧ (h.nodes pid).parent = some parent ∧ (h.nodes pid).name = name

/-- A spawn finds no pending one of its name under its parent, the system spawns a free name while the
    guardian has not asked for its children, and the children of an actor are asked for when no spawn
    under it is pending. -/
def Separate (h : Hierarchy ν) : HierarchyEvent ν → Prop
  | .spawnChild parent name => h.stage parent = .live → ∀ pid < h.count, ¬ h.Pending parent name pid
  | .spawn name => h.child 0 name = none → (h.stage 0 = .live ∨ h.stage 0 = .stopping) ∧
      ∀ pid < h.count, ¬ h.Pending 0 name pid
  | .idle pid => ∀ child < h.count, (h.nodes child).parent = some pid → h.stage child ≠ .pending
  | _ => True

/-! ### The invariant -/

/-- Every actor that runs is in the tree under a parent that runs, the tree holds no other actor,
    a pending spawn finds its place free, and a shutdown waits for every child that runs. -/
structure Sound (h : Hierarchy ν) : Prop where
  fresh : ∀ pid, h.count ≤ pid → h.stage pid = .absent
  guardian : ∀ pid, (h.nodes pid).parent = none → h.stage pid ≠ .pending
  pending : ∀ pid, h.stage pid = .pending → ∀ parent, (h.nodes pid).parent = some parent →
    (h.stage parent = .live ∨ h.stage parent = .stopping) ∧
      h.namedChild parent (h.nodes pid).name = none
  alone : ∀ pid other, h.stage pid = .pending → h.stage other = .pending →
    (h.nodes pid).parent = (h.nodes other).parent → (h.nodes pid).name = (h.nodes other).name →
    pid = other
  inTree : ∀ pid, (h.stage pid).running = true → (h.nodes pid).inTree = true
  placed : ∀ pid, (h.stage pid).running = true → ∀ parent, (h.nodes pid).parent = some parent →
    (h.stage parent).running = true ∧ h.namedChild parent (h.nodes pid).name = some pid
  entries : ∀ parent name pid, h.namedChild parent name = some pid →
    (h.nodes pid).parent = some parent ∧ (h.nodes pid).name = name ∧ (h.stage pid).running = true
  waiting : ∀ parent children, h.stage parent = .waiting children →
    ∀ pid, (h.nodes pid).parent = some parent → (h.stage pid).running = true → pid ∈ children
  postStop : ∀ parent, h.stage parent = .postStop →
    ∀ pid, (h.nodes pid).parent = some parent → (h.stage pid).running = false

theorem create_sound (guardian : ν) : (create guardian).Sound where
  fresh pid hpid := by
    have : pid ≠ 0 := Nat.ne_of_gt hpid
    simp [stage_create, this]
  guardian pid _ := by
    rw [stage_create]
    split <;> nofun
  pending pid _ _ hparent := nomatch hparent
  alone pid _ hpid := by
    rw [stage_create] at hpid
    split at hpid <;> nomatch hpid
  inTree pid hpid := by
    rw [stage_create] at hpid
    split at hpid
    · simpa [create]
    · nomatch hpid
  placed _ _ _ hparent := nomatch hparent
  entries _ _ _ hmem := nomatch hmem
  waiting _ _ _ _ hparent := nomatch hparent
  postStop _ _ _ hparent := nomatch hparent

/-- An actor moves on and runs as before: what its new stage asks for is left to show. -/
theorem Sound.advance (hs : h.Sound) {st : Stage} (habsent : h.stage pid ≠ .absent)
    (hst : st ≠ .pending) (hsame : st.running = (h.stage pid).running)
    (hpending : st = .live ∨ st = .stopping ∨
      ∀ q, (h.nodes q).parent = some pid → h.stage q ≠ .pending)
    (hwaiting : ∀ children, st = .waiting children → ∀ q, (h.nodes q).parent = some pid →
      (h.stage q).running = true → q ∈ children)
    (hpostStop : st = .postStop → ∀ q, (h.nodes q).parent = some pid →
      (h.stage q).running = false) : (h.setStage pid st).Sound := by
  constructor
  case fresh =>
    intro q hq
    have hfresh := hs.fresh q hq
    rw [stage_setStage, if_neg, hfresh]
    rintro rfl
    exact habsent hfresh
  case guardian =>
    intro q hq hqp
    rw [parent_setStage] at hq
    exact hs.guardian q hq (pending_setStage hst hqp).1
  case pending =>
    intro q hq parent hparent
    rw [parent_setStage] at hparent
    obtain ⟨hq, -⟩ := pending_setStage hst hq
    obtain ⟨hstage, hfree⟩ := hs.pending q hq parent hparent
    refine ⟨?_, by rwa [name_setStage, namedChild_setStage]⟩
    rw [stage_setStage]
    split
    · subst parent
      rcases hpending with hst | hst | hnone
      · exact .inl hst
      · exact .inr hst
      · exact absurd hq (hnone q hparent)
    · exact hstage
  case alone =>
    intro q other hq hother hparent hname
    rw [parent_setStage, parent_setStage] at hparent
    rw [name_setStage, name_setStage] at hname
    exact hs.alone q other (pending_setStage hst hq).1 (pending_setStage hst hother).1 hparent hname
  case inTree =>
    intro q hq
    rw [running_setStage hsame] at hq
    rw [inTree_setStage]
    exact hs.inTree q hq
  case placed =>
    intro q hq parent hparent
    rw [running_setStage hsame] at hq ⊢
    rw [parent_setStage] at hparent
    rw [name_setStage, namedChild_setStage]
    exact hs.placed q hq parent hparent
  case entries =>
    intro parent name q hmem
    rw [parent_setStage, name_setStage, running_setStage hsame]
    exact hs.entries parent name q hmem
  case waiting =>
    intro parent children hparent q hq hrunning
    rw [running_setStage hsame] at hrunning
    rw [parent_setStage] at hq
    rw [stage_setStage] at hparent
    split at hparent
    · subst parent; exact hwaiting children hparent q hq hrunning
    · exact hs.waiting parent children hparent q hq hrunning
  case postStop =>
    intro parent hparent q hq
    rw [running_setStage hsame]
    rw [parent_setStage] at hq
    rw [stage_setStage] at hparent
    split at hparent
    · subst parent; exact hpostStop hparent q hq
    · exact hs.postStop parent hparent q hq

theorem Sound.not_pending_under (hs : h.Sound) (hlive : h.stage pid ≠ .live)
    (hstopping : h.stage pid ≠ .stopping) (q : ℕ) (hq : (h.nodes q).parent = some pid) :
    h.stage q ≠ .pending := by
  intro hpending
  rcases (hs.pending q hpending pid hq).1 with hstage | hstage
  · exact hlive hstage
  · exact hstopping hstage

theorem Sound.startFailed (hs : h.Sound) (hpid : h.stage pid = .pending) :
    (h.setStage pid .failed).Sound := by
  refine hs.advance ?_ nofun (by rw [hpid]; rfl) (.inr (.inr ?_)) nofun nofun
  · rw [hpid]; nofun
  · exact hs.not_pending_under (by rw [hpid]; nofun) (by rw [hpid]; nofun)

theorem Sound.shutdown (hs : h.Sound) (pid : ℕ) : (h.shutdown pid).Sound := by
  unfold Hierarchy.shutdown
  split_ifs with hlive
  · exact hs.advance (by rw [hlive]; nofun) nofun (by rw [hlive]; rfl) (.inr (.inl rfl)) nofun nofun
  · exact hs

theorem Sound.shutdownAll : ∀ {pids : List ℕ} {h : Hierarchy ν}, h.Sound → (h.shutdownAll pids).Sound
  | [], _, hs => hs
  | pid :: _, _, hs => (hs.shutdown pid).shutdownAll

section

variable (hs : h.Sound)
include hs

theorem Sound.idle (hpid : h.stage pid = .stopping)
    (hnone : ∀ child < h.count, (h.nodes child).parent = some pid → h.stage child ≠ .pending) :
    (h.setStage pid (.waiting (h.children pid))).Sound := by
  have hold : (h.stage pid).running = true := by rw [hpid]; rfl
  refine hs.advance (by rw [hpid]; nofun) nofun hold.symm
    (.inr (.inr fun q hq hpending => ?_)) ?_ nofun
  · by_cases hcount : q < h.count
    · exact hnone q hcount hq hpending
    · rw [hs.fresh q (Nat.le_of_not_lt hcount)] at hpending
      nomatch hpending
  · intro children hchildren q hq hrunning
    rw [← Stage.waiting.inj hchildren, Hierarchy.children, if_pos (hs.inTree pid hold)]
    exact OrderedMap.mem_values_iff.mpr ⟨_, (hs.placed q hrunning pid hq).2⟩

theorem Sound.childrenStopped {children : List ℕ} (hpid : h.stage pid = .waiting children)
    (hdone : ∀ child ∈ children, (h.stage child).running = false) :
    (h.setStage pid .postStop).Sound := by
  refine hs.advance (by rw [hpid]; nofun) nofun (by rw [hpid]; rfl) (.inr (.inr ?_)) nofun ?_
  · exact hs.not_pending_under (by rw [hpid]; nofun) (by rw [hpid]; nofun)
  · intro _ q hq
    by_contra hrunning
    rw [Bool.not_eq_false] at hrunning
    rw [hdone q (hs.waiting pid children hpid q hq hrunning)] at hrunning
    nomatch hrunning

/-- A spawn that found its place free enters the tree. -/
theorem Sound.enter (hpid : h.stage pid = .pending)
    (hparent : (h.nodes pid).parent = some parent) : (h.enter pid parent).Sound := by
  obtain ⟨hstage, hfree⟩ := hs.pending pid hpid parent hparent
  have hup : (h.stage parent).running = true := by
    rcases hstage with hstage | hstage <;> rw [hstage] <;> rfl
  have hkeeps : ∀ q, (h.stage q).running = true → ((h.enter pid parent).stage q).running = true := by
    intro q hq
    rw [stage_enter]
    split
    · rfl
    · exact hq
  have hold : ∀ q, (h.enter pid parent).stage q = .pending → h.stage q = .pending ∧ q ≠ pid := by
    intro q hq
    rw [stage_enter] at hq
    split at hq
    · cases hq
    · exact ⟨hq, ‹_›⟩
  -- a shutdown that has asked for its children has no spawn pending under it
  have hbelow : ∀ p q, (h.enter pid parent).stage p ≠ .live → (h.enter pid parent).stage p ≠ .stopping →
      (h.nodes q).parent = some p →
      h.stage p = (h.enter pid parent).stage p ∧ (h.enter pid parent).stage q = h.stage q := by
    intro p q hlive hstopping hq
    rw [stage_enter] at hlive hstopping ⊢
    split at hlive
    · exact absurd rfl hlive
    · rw [if_neg ‹_›] at hstopping ⊢
      refine ⟨rfl, ?_⟩
      rw [stage_enter, if_neg]
      rintro rfl
      exact hs.not_pending_under hlive hstopping q hq hpid
  constructor
  case fresh =>
    intro q hq
    have hfresh := hs.fresh q hq
    rw [stage_enter, if_neg, hfresh]
    rintro rfl
    rw [hpid] at hfresh
    cases hfresh
  case guardian =>
    intro q hq hpending
    rw [parent_enter] at hq
    exact hs.guardian q hq (hold q hpending).1
  case pending =>
    intro q hq p hp
    rw [parent_enter] at hp
    obtain ⟨hpending, hne⟩ := hold q hq
    obtain ⟨hpstage, hpfree⟩ := hs.pending q hpending p hp
    refine ⟨?_, ?_⟩
    · rw [stage_enter, if_neg]
      · exact hpstage
      · rintro rfl
        rw [hpid] at hpstage
        rcases hpstage with hpstage | hpstage <;> cases hpstage
    · rw [name_enter, namedChild_enter, if_neg]
      · exact hpfree
      · rintro ⟨rfl, hname⟩
        exact hne (hs.alone q pid hpending hpid (hp.trans hparent.symm) hname)
  case alone =>
    intro q other hq hother hp hname
    rw [parent_enter, parent_enter] at hp
    rw [name_enter, name_enter] at hname
    exact hs.alone q other (hold q hq).1 (hold other hother).1 hp hname
  case inTree =>
    intro q hq
    rw [inTree_enter]
    rw [stage_enter] at hq
    split
    · rfl
    · rw [if_neg ‹_›] at hq
      exact hs.inTree q hq
  case placed =>
    intro q hq p hp
    rw [parent_enter] at hp
    rw [name_enter, namedChild_enter]
    rw [stage_enter] at hq
    split at hq
    · subst q
      obtain rfl := some.inj (hp.symm.trans hparent)
      exact ⟨hkeeps p hup, if_pos ⟨rfl, rfl⟩⟩
    · obtain ⟨hprun, hnamed⟩ := hs.placed q hq p hp
      refine ⟨hkeeps p hprun, ?_⟩
      rw [if_neg]
      · exact hnamed
      · rintro ⟨rfl, hname⟩
        rw [hname, hfree] at hnamed
        cases hnamed
  case entries =>
    intro p name q hnamed
    rw [parent_enter, name_enter]
    rw [namedChild_enter] at hnamed
    split_ifs at hnamed with heq
    · obtain rfl := some.inj hnamed
      exact ⟨heq.1 ▸ hparent, heq.2.symm, by rw [stage_enter, if_pos rfl]; rfl⟩
    · obtain ⟨hp, hname, hrun⟩ := hs.entries p name q hnamed
      exact ⟨hp, hname, hkeeps q hrun⟩
  case waiting =>
    intro p children hp q hq hrun
    rw [parent_enter] at hq
    obtain ⟨hpstage, hqstage⟩ := hbelow p q (by simp [hp]) (by simp [hp]) hq
    exact hs.waiting p children (hpstage.trans hp) q hq (hqstage ▸ hrun)
  case postStop =>
    intro p hp q hq
    rw [parent_enter] at hq
    obtain ⟨hpstage, hqstage⟩ := hbelow p q (by simp [hp]) (by simp [hp]) hq
    rw [hqstage]
    exact hs.postStop p (hpstage.trans hp) q hq

/-- An actor that has started is entered into the tree. -/
theorem Sound.started {pid : ℕ} (hpid : h.stage pid = .pending) :
    ((h.setStage pid .live).addNode pid).Sound := by
  obtain hnone | ⟨parent, hparent⟩ := (h.nodes pid).parent.eq_none_or_eq_some
  · exact absurd hpid (hs.guardian pid hnone)
  obtain ⟨hstage, hfree⟩ := hs.pending pid hpid parent hparent
  have hup : (h.stage parent).running = true := by
    rcases hstage with hstage | hstage <;> rw [hstage] <;> rfl
  have hentered : (h.setStage pid .live).addNode pid = h.enter pid parent := by
    have hfree' : (h.setStage pid .live).namedChild parent (h.nodes pid).name = none := hfree
    simp only [addNode, parent_setStage, hparent, inTree_setStage, hs.inTree parent hup, if_true,
      name_setStage, hfree', detachExisting]
    rfl
  rw [hentered]
  exact hs.enter hpid hparent

/-- The tree without an actor has the entries of the others. -/
theorem Sound.namedChild_leave_iff {q : ℕ} : (h.leave pid).namedChild parent name = some q ↔
      h.namedChild parent name = some q ∧ q ≠ pid := by
  rw [namedChild_leave]
  split_ifs with hown
  · rw [hown.2.2, some.injEq]
    exact ⟨fun h => (by cases h), fun h => absurd h.1.symm h.2⟩
  · refine ⟨fun hnamed => ⟨hnamed, ?_⟩, And.left⟩
    rintro rfl
    obtain ⟨hparent, hname, -⟩ := hs.entries parent name q hnamed
    exact hown ⟨hparent, hname, hnamed⟩

/-- An actor none of whose children runs leaves the tree. -/
theorem Sound.leave (hpid : h.stage pid = .postStop) : (h.leave pid).Sound := by
  have hup : (h.stage pid).running = true := by rw [hpid]; rfl
  have hold : ∀ q, q ≠ pid → (h.leave pid).stage q = h.stage q := by
    intro q hq
    rw [stage_leave, if_neg hq]
  have hpending : ∀ q, (h.leave pid).stage q = .pending → h.stage q = .pending := by
    intro q hq
    rw [stage_leave] at hq
    split at hq
    · nomatch hq
    · exact hq
  have hrunning : ∀ q, ((h.leave pid).stage q).running = true →
      (h.stage q).running = true ∧ q ≠ pid := by
    intro q hq
    rw [stage_leave] at hq
    split at hq
    · nomatch hq
    · exact ⟨hq, ‹_›⟩
  constructor
  case fresh =>
    intro q hq
    rw [show (h.leave pid).count = h.count from count_dropFromParent pid] at hq
    have hfresh := hs.fresh q hq
    rw [hold q, hfresh]
    rintro rfl
    rw [hpid] at hfresh
    nomatch hfresh
  case guardian =>
    intro q hq hqp
    rw [parent_leave] at hq
    exact hs.guardian q hq (hpending q hqp)
  case pending =>
    intro q hq p hp
    rw [parent_leave] at hp
    obtain ⟨hstage, hfree⟩ := hs.pending q (hpending q hq) p hp
    rw [name_leave]
    refine ⟨?_, ?_⟩
    · rw [hold p]
      · exact hstage
      · rintro rfl
        rw [hpid] at hstage
        rcases hstage with hstage | hstage <;> nomatch hstage
    · rw [namedChild_leave, hfree, ite_self]
  case alone =>
    intro q other hq hother hp hname
    rw [parent_leave, parent_leave] at hp
    rw [name_leave, name_leave] at hname
    exact hs.alone q other (hpending q hq) (hpending other hother) hp hname
  case inTree =>
    intro q hq
    obtain ⟨hq, hne⟩ := hrunning q hq
    rw [inTree_leave hne]
    exact hs.inTree q hq
  case placed =>
    intro q hq p hp
    rw [parent_leave] at hp
    rw [name_leave]
    obtain ⟨hqrun, hne⟩ := hrunning q hq
    obtain ⟨hprun, hnamed⟩ := hs.placed q hqrun p hp
    refine ⟨?_, hs.namedChild_leave_iff.mpr ⟨hnamed, hne⟩⟩
    rw [hold p]
    · exact hprun
    · rintro rfl
      rw [hs.postStop p hpid q hp] at hqrun
      nomatch hqrun
  case entries =>
    intro p name q hnamed
    obtain ⟨hnamed, hne⟩ := hs.namedChild_leave_iff.mp hnamed
    rw [parent_leave, name_leave, hold q hne]
    exact hs.entries p name q hnamed
  case waiting =>
    intro p children hp q hq hrun
    rw [parent_leave] at hq
    rw [stage_leave] at hp
    split at hp
    · nomatch hp
    · exact hs.waiting p children hp q hq (hrunning q hrun).1
  case postStop =>
    intro p hp q hq
    rw [parent_leave] at hq
    rw [stage_leave] at hp ⊢
    split at hp
    · nomatch hp
    · split
      · rfl
      · exact hs.postStop p hp q hq

theorem Sound.postStopEnded (hpid : h.stage pid = .postStop) :
    ((h.deleteNode pid).setStage pid .stopped).Sound := by
  have hup : (h.stage pid).running = true := by rw [hpid]; rfl
  have hnone : h.childrenOf pid = .empty := by
    refine OrderedMap.eq_empty fun name => eq_none_iff_forall_ne_some.mpr fun q hnamed => ?_
    obtain ⟨hparent, -, hq⟩ := hs.entries pid name q hnamed
    rw [hs.postStop pid hpid q hparent] at hq
    nomatch hq
  rw [deleteNode_eq (hs.inTree pid hup) hnone]
  exact hs.leave hpid

theorem Sound.begin (hopen : h.stage parent = .live ∨ h.stage parent = .stopping)
    (hfree : h.namedChild parent name = none) (hnone : ∀ pid < h.count, ¬ h.Pending parent name pid) :
    (h.begin parent name).Sound := by
  have hnew : (h.begin parent name).stage h.count = .pending := by rw [stage, begin_new]
  have hpresent : ∀ q, h.stage q ≠ .absent → (h.begin parent name).nodes q = h.nodes q := by
    intro q hq
    refine begin_old _ _ ?_
    rintro rfl
    exact hq (hs.fresh _ le_rfl)
  have hbefore : ∀ q, (h.begin parent name).stage q ≠ .pending →
      (h.begin parent name).nodes q = h.nodes q := by
    intro q hq
    refine begin_old _ _ ?_
    rintro rfl
    exact hq hnew
  have hup : ∀ q, ((h.begin parent name).stage q).running = true →
      (h.begin parent name).nodes q = h.nodes q := by
    intro q hq
    refine hbefore q fun hpending => ?_
    rw [hpending] at hq
    cases hq
  have hrunning : ∀ q, (h.stage q).running = true → (h.begin parent name).nodes q = h.nodes q := by
    intro q hq
    refine hpresent q fun habsent => ?_
    rw [habsent] at hq
    cases hq
  -- the new spawn is the only one of its name under its parent
  have halone : ∀ q, q ≠ h.count → (h.begin parent name).stage q = .pending →
      ((h.begin parent name).nodes q).parent = some parent →
      ((h.begin parent name).nodes q).name ≠ name := by
    intro q hq hpending hparent hname
    rw [stage, begin_old _ _ hq] at hpending
    rw [begin_old _ _ hq] at hparent hname
    refine hnone q ?_ ⟨hpending, hparent, hname⟩
    by_contra hcount
    have habsent := hs.fresh q (Nat.le_of_not_lt hcount)
    rw [stage, hpending] at habsent
    cases habsent
  constructor
  case fresh =>
    intro q hq
    have hlt : h.count < q := hq
    rw [stage, begin_old _ _ hlt.ne']
    exact hs.fresh q hlt.le
  case guardian =>
    intro q hq
    by_cases hcount : q = h.count
    · subst q
      rw [begin_new] at hq
      cases hq
    · rw [begin_old _ _ hcount] at hq
      rw [stage, begin_old _ _ hcount]
      exact hs.guardian q hq
  case pending =>
    intro q hq p hp
    by_cases hcount : q = h.count
    · subst q
      rw [begin_new] at hp ⊢
      cases hp
      rw [stage, hrunning parent (by rcases hopen with hopen | hopen <;> rw [hopen] <;> rfl)]
      exact ⟨hopen, hfree⟩
    · rw [begin_old _ _ hcount] at hp ⊢
      rw [stage, begin_old _ _ hcount] at hq
      obtain ⟨hstage, hplace⟩ := hs.pending q hq p hp
      have hprun : (h.stage p).running = true := by
        rcases hstage with hstage | hstage <;> rw [hstage] <;> rfl
      rw [stage, hrunning p hprun]
      exact ⟨hstage, hplace⟩
  case alone =>
    intro q other hq hother hp hname
    by_cases hcount : q = h.count <;> by_cases hcount' : other = h.count
    · exact hcount.trans hcount'.symm
    · subst q
      rw [begin_new] at hp hname
      exact absurd hname.symm (halone other hcount' hother hp.symm)
    · subst other
      rw [begin_new] at hp hname
      exact absurd hname (halone q hcount hq hp)
    · rw [stage, begin_old _ _ hcount] at hq
      rw [stage, begin_old _ _ hcount'] at hother
      rw [begin_old _ _ hcount, begin_old _ _ hcount'] at hp hname
      exact hs.alone q other hq hother hp hname
  case inTree =>
    intro q hq
    have hsame := hup q hq
    rw [stage, hsame] at hq
    rw [hsame]
    exact hs.inTree q hq
  case placed =>
    intro q hq p hp
    have hsame := hup q hq
    rw [stage, hsame] at hq
    rw [hsame] at hp ⊢
    obtain ⟨hprun, hnamed⟩ := hs.placed q hq p hp
    rw [stage, hrunning p hprun]
    exact ⟨hprun, hnamed⟩
  case entries =>
    intro p n q hmem
    have hentry := hs.entries p n q hmem
    rw [stage, hrunning q hentry.2.2]
    exact hentry
  case waiting =>
    intro p children hp q hq hrun
    have hsame := hup q hrun
    have hsame' := hbefore p (by simp [hp])
    rw [stage, hsame'] at hp
    rw [hsame] at hq
    rw [stage, hsame] at hrun
    exact hs.waiting p children hp q hq hrun
  case postStop =>
    intro p hp q hq
    by_contra hrun
    rw [Bool.not_eq_false] at hrun
    have hsame := hup q hrun
    have hsame' := hbefore p (by simp [hp])
    rw [stage, hsame'] at hp
    rw [hsame] at hq
    rw [stage, hsame] at hrun
    exact Bool.false_ne_true ((hs.postStop p hp q hq).symm.trans hrun)

theorem Sound.spawnChild
    (hnone : h.stage parent = .live → ∀ pid < h.count, ¬ h.Pending parent name pid) :
    (h.spawnChild parent name).Sound := by
  unfold Hierarchy.spawnChild
  split
  · exact hs
  · rename_i hlive
    rw [not_not] at hlive
    split
    · exact hs
    · rename_i hfree
      rw [not_not, child, if_pos (hs.inTree parent (by rw [hlive]; rfl))] at hfree
      exact hs.begin (.inl hlive) hfree (hnone hlive)

theorem Sound.spawn (hcond : h.child 0 name = none → (h.stage 0 = .live ∨ h.stage 0 = .stopping) ∧
      ∀ pid < h.count, ¬ h.Pending 0 name pid) : (h.spawn name).Sound := by
  unfold Hierarchy.spawn
  split_ifs with hfree
  · exact hs
  · rw [not_not] at hfree
    obtain ⟨hopen, hnone⟩ := hcond hfree
    have hup : (h.stage 0).running = true := by rcases hopen with hopen | hopen <;> rw [hopen] <;> rfl
    rw [child, if_pos (hs.inTree 0 hup)] at hfree
    exact hs.begin hopen hfree hnone

theorem Sound.step {e : HierarchyEvent ν} (hcond : h.Separate e)
    {next : Hierarchy ν} (hstep : h.step e = some next) : next.Sound := by
  cases e with
  | spawnChild parent name =>
    cases hstep
    exact hs.spawnChild hcond
  | spawn name =>
    cases hstep
    exact hs.spawn hcond
  | started pid =>
    obtain ⟨hpid, rfl⟩ := of_guarded hstep
    exact hs.started hpid
  | startFailed pid =>
    obtain ⟨hpid, rfl⟩ := of_guarded hstep
    exact hs.startFailed hpid
  | shutdown pid =>
    cases hstep
    exact hs.shutdown pid
  | idle pid =>
    obtain ⟨hpid, rfl⟩ := of_guarded hstep
    exact (hs.idle hpid hcond).shutdownAll
  | childrenStopped pid =>
    simp only [Hierarchy.step] at hstep
    split at hstep
    · rename_i children hpid
      simp only [ite_none_right_eq_some, some.injEq] at hstep
      obtain ⟨hdone, rfl⟩ := hstep
      exact hs.childrenStopped hpid hdone
    · nomatch hstep
  | postStopEnded pid =>
    obtain ⟨hpid, rfl⟩ := of_guarded hstep
    exact hs.postStopEnded hpid

end

instance (h : Hierarchy ν) (parent : ℕ) (name : ν) (pid : ℕ) :
    Decidable (h.Pending parent name pid) :=
  inferInstanceAs (Decidable (_ ∧ _ ∧ _))

instance decidableSeparate (h : Hierarchy ν) (e) : Decidable (h.Separate e) := by
  rcases e <;> dsimp only [Separate] <;> infer_instance

/-- In every run in which no spawn overlaps another of its name under its parent, no shutdown asks for
    the children while a spawn under it is pending, and the system spawns nothing once the guardian
    has asked for its children: two actors that run under one parent have different names, every
    actor that runs is in the tree, and none runs under a parent whose shutdown is over. -/
theorem one_actor_per_name {guardian : ν} {es : List (HierarchyEvent ν)}
    (hmeets : Meets step Separate (create guardian) es) (hrun : run step (create guardian) es = some h) :
    (∀ pid other, (h.stage pid).running = true → (h.stage other).running = true →
      (h.nodes pid).parent = (h.nodes other).parent → (h.nodes pid).parent ≠ none →
      (h.nodes pid).name = (h.nodes other).name → pid = other) ∧
    (∀ pid, (h.stage pid).running = true → (h.nodes pid).inTree = true) ∧
    ∀ parent, h.stage parent = .stopped →
      ∀ pid, (h.nodes pid).parent = some parent → (h.stage pid).running = false := by
  have hs : h.Sound := run_preserves (fun _ _ _ hs hcond hstep => hs.step hcond hstep)
    (create_sound guardian) hmeets hrun
  refine ⟨?_, hs.inTree, ?_⟩
  · intro pid other hpid hother hparent hsome hname
    obtain ⟨parent, hp⟩ := Option.ne_none_iff_exists'.mp hsome
    have hfirst := (hs.placed pid hpid parent hp).2
    have hsecond := (hs.placed other hother parent (hparent.symm.trans hp)).2
    rw [← hname] at hsecond
    exact Option.some.inj (hfirst.symm.trans hsecond)
  · intro parent hstopped pid hp
    by_contra hrun
    rw [Bool.not_eq_false] at hrun
    have hup := (hs.placed pid hrun parent hp).1
    rw [hstopped] at hup
    nomatch hup

/-- Two spawns of one name overlap: the second finds the name free, and when it has started it
    replaces the first, which runs on outside the tree. -/
theorem replaced_actor_runs_on :
    ∃ h ∈ run step (create 0) [.spawn 7, .spawn 7, .started 1, .started 2],
      (h.stage 1).running = true ∧ (h.stage 2).running = true ∧
      (h.nodes 1).parent = some 0 ∧ (h.nodes 2).parent = some 0 ∧
      (h.nodes 1).name = 7 ∧ (h.nodes 2).name = 7 ∧
      (h.nodes 1).inTree = false := by
  decide +kernel

/-- A child spawned again under its name while the parent stops with the first one gone. -/
theorem respawned_child_stops :
    ∃ h ∈ run step (create 0) [.spawn 7, .started 1, .spawnChild 1 8, .started 2, .shutdown 2,
      .idle 2, .childrenStopped 2, .postStopEnded 2, .spawnChild 1 8, .shutdown 1, .started 3,
      .idle 1, .idle 3, .childrenStopped 3, .postStopEnded 3, .childrenStopped 1,
      .postStopEnded 1],
      h.stage 1 = .stopped ∧ (h.nodes 3).parent = some 1 ∧ (h.stage 3).running = false := by
  refine ends_imp (P := fun h => h.stage 1 = .stopped ∧ (h.nodes 3).parent = some 1)
    (by decide +kernel) ?_
  rintro h hrun ⟨hstopped, hparent⟩
  exact ⟨hstopped, hparent,
    (one_actor_per_name (by decide +kernel) hrun).2.2 1 hstopped 3 hparent⟩

/-- In every such run an actor that runs has a parent that runs and finds it under its name, and
    while the postStop of an actor runs none of its children does. -/
theorem parents_outlive_children {guardian : ν} {es : List (HierarchyEvent ν)}
    (hmeets : Meets step Separate (create guardian) es) (hrun : run step (create guardian) es = some h) :
    (∀ pid parent, (h.stage pid).running = true → (h.nodes pid).parent = some parent →
      (h.stage parent).running = true ∧ h.namedChild parent (h.nodes pid).name = some pid) ∧
    ∀ pid parent, h.stage parent = .postStop → (h.nodes pid).parent = some parent →
      (h.stage pid).running = false := by
  have hs : h.Sound := run_preserves (fun _ _ _ hs hcond hstep => hs.step hcond hstep)
    (create_sound guardian) hmeets hrun
  exact ⟨fun pid parent hpid => hs.placed pid hpid parent,
    fun pid parent hparent => hs.postStop parent hparent pid⟩

/-- A parent whose last child has stopped runs its postStop. -/
theorem child_stops_first :
    ∃ h ∈ run step (create 0) [.spawn 7, .started 1, .spawnChild 1 8, .started 2, .shutdown 1, .idle 1,
      .idle 2, .childrenStopped 2, .postStopEnded 2, .childrenStopped 1],
      h.stage 1 = .postStop ∧ (h.nodes 2).parent = some 1 ∧ (h.stage 2).running = false := by
  refine ends_imp (P := fun h => h.stage 1 = .postStop ∧ (h.nodes 2).parent = some 1)
    (by decide +kernel) ?_
  rintro h hrun ⟨hstage, hparent⟩
  exact ⟨hstage, hparent, (parents_outlive_children (by decide +kernel) hrun).2 2 1 hstage hparent⟩

end Hierarchy

end Nodeakt.Actor
