import Nodeakt.Clustering.Relocation
import Nodeakt.Schemes.Run

/-! The relocation actor (`clustering.relocator.ts`).

    It handles one message at a time. A pass scans the registry, and then frees and recreates the
    orphans of one departed node after the other, waiting for each free and for the recreates of a
    node together. Between the steps of a pass the membership changes in any way; `scanPlacements`
    returns any list of records. The bytes of a companion are decoded by `decode`, which fails on
    those that are not a companion.

    `absent_owners_only`: a pass started by a departure needs that the address in its message is not
    a member again when the registry is read. -/

namespace Nodeakt.Clustering
open Schemes List

/-- What recreates an actor, and whether it is a singleton. -/
structure Companion (ρ : Type) where
  recipe : ρ
  singleton : Bool

/-- A placement of the registry with the bytes of its companion. -/
structure PlacementRecord (ν α β : Type) where
  name : ν
  owner : α
  companion : Option β

structure RelocationMember (α : Type) where
  name : α
  ready : Bool
  draining : Bool

inductive RelocatorMessage (α : Type) where
  | nodeDeparted (address : α)
  | relocationSweep

/-- What the actor asks the registry or a survivor to do. -/
inductive Order (ν α ρ : Type) where
  | free (name : ν) (deadOwner : α)
  | recreate (owner : α) (name : ν) (recipe : ρ) (singleton : Bool) (deadOwner : α)

def Order.name {ν α ρ : Type} : Order ν α ρ → ν
  | .free name _ => name
  | .recreate _ name _ _ _ => name

def Order.deadOwner {ν α ρ : Type} : Order ν α ρ → α
  | .free _ deadOwner => deadOwner
  | .recreate _ _ _ _ deadOwner => deadOwner

/-- The orphans of one departed node. -/
structure Orphans (ν α ρ : Type) where
  deadOwner : α
  singletons : List (ν × ρ)
  ordinary : List (ν × ρ)
  nonRelocatable : List ν

/-- A pass: what its scan returned, who was a member then, the departed nodes to come, and the actors
    each survivor owns. -/
structure Pass (ν α β : Type) where
  placements : List (PlacementRecord ν α β)
  present : List α
  departed : List α
  counts : α → ℕ

/-- Where the actor waits. A scan knows the address of the message, if there is one. -/
inductive Progress (ν α β ρ : Type) where
  | idle
  | scanning (address : Option α)
  | freeing (pass : Pass ν α β) (orphans : Orphans ν α ρ)
  | recreating (pass : Pass ν α β) (owners : List α)

/-- An order with the placements and the members of the pass that issued it. -/
structure Issued (ν α β ρ : Type) where
  order : Order ν α ρ
  placements : List (PlacementRecord ν α β)
  present : List α

/-- The actor on the node `self`, with the membership view it reads, and all it has ordered. -/
structure Relocator (ν α β ρ : Type) where
  self : α
  coordinator : α
  members : List (RelocationMember α)
  progress : Progress ν α β ρ
  issued : List (Issued ν α β ρ)

inductive RelocatorEvent (ν α β : Type) where
  | view (coordinator : α) (members : List (RelocationMember α))
  | receive (message : RelocatorMessage α)
  | scanned (placements : Option (List (PlacementRecord ν α β)))
  | freed (ok : Bool)
  | recreated (placed : List Bool)

namespace Relocator

variable {ν α β ρ : Type} [LinearOrder ν] [LinearOrder α] (decode : β → Option (Companion ρ))

def readCompanion (orphan : PlacementRecord ν α β) : Option (Companion ρ) :=
  orphan.companion.bind decode

/-- Classifies the orphans of a departed node. -/
def classify (deadOwner : α) : List (PlacementRecord ν α β) → Orphans ν α ρ
  | [] => ⟨deadOwner, [], [], []⟩
  | orphan :: rest =>
    let others := classify deadOwner rest
    match readCompanion decode orphan with
    | none => { others with nonRelocatable := orphan.name :: others.nonRelocatable }
    | some companion =>
      if companion.singleton then
        { others with singletons := (orphan.name, companion.recipe) :: others.singletons }
      else { others with ordinary := (orphan.name, companion.recipe) :: others.ordinary }

/-- How many actors each survivor owns. -/
def survivorCounts (departed : List α) (placements : List (PlacementRecord ν α β)) (owner : α) : ℕ :=
  if owner ∈ departed then 0 else placements.countP (·.owner = owner)

variable (r : Relocator ν α β ρ)

/-- The present members. -/
def present : List α := r.members.map RelocationMember.name

/-- The survivors of a departed node. -/
def survivors (deadOwner : α) (counts : α → ℕ) : List (FillTarget α) :=
  (r.members.filter fun member => member.ready && !member.draining && member.name ≠ deadOwner).map
    fun member => ⟨member.name, counts member.name⟩

/-- The recreates for a departed node: ordinary actors by balanced fill, singletons on the
    coordinator; an ordinary actor no survivor takes is left to a later pass. -/
def plan (orphans : Orphans ν α ρ) (counts : α → ℕ) : List (Order ν α ρ × α) :=
  let assignments :=
    planFill (orphans.ordinary.map Prod.fst) (r.survivors orphans.deadOwner counts)
  (orphans.ordinary.filterMap fun (name, recipe) =>
    (assignments.reverse.find? (·.name = name)).map fun assignment =>
      (.recreate assignment.owner name recipe false orphans.deadOwner, assignment.owner)) ++
  orphans.singletons.map fun (name, recipe) =>
    (.recreate r.self name recipe true orphans.deadOwner, r.self)

/-- Issues orders of a pass. -/
def issue (pass : Pass ν α β) (orders : List (Order ν α ρ)) : Relocator ν α β ρ :=
  { r with issued := r.issued ++ orders.map fun order => ⟨order, pass.placements, pass.present⟩ }

/-- Frees the next name, or recreates the actors when all are freed. -/
def work (pass : Pass ν α β) (orphans : Orphans ν α ρ) : Relocator ν α β ρ :=
  match orphans.nonRelocatable with
  | name :: _ =>
    { r.issue pass [.free name orphans.deadOwner] with progress := .freeing pass orphans }
  | [] =>
    let planned := r.plan orphans pass.counts
    { r.issue pass (planned.map Prod.fst) with
      progress := .recreating pass (planned.map Prod.snd) }

/-- Goes on to the next departed node that has orphans. -/
def relocate (pass : Pass ν α β) : List α → Relocator ν α β ρ
  | [] => { r with progress := .idle }
  | deadOwner :: rest =>
    match pass.placements.filter (·.owner = deadOwner) with
    | [] => relocate pass rest
    | orphan :: more =>
      r.work { pass with departed := rest } (classify decode deadOwner (orphan :: more))

/-- The departed nodes of a pass: the one of the message, or every owner that is not a member. -/
def departedOf (address : Option α) (placements : List (PlacementRecord ν α β)) : List α :=
  match address with
  | some address => [address]
  | none =>
    ((placements.filter fun placement => placement.owner ∉ r.present).map
      PlacementRecord.owner).reverse.dedup.reverse

/-- Counts the actors that survivors took. -/
def countPlaced (counts : α → ℕ) : List α → List Bool → α → ℕ
  | owner :: owners, placed :: rest =>
    countPlaced (if placed then Function.update counts owner (counts owner + 1) else counts)
      owners rest
  | _, _ => counts

/-- One event: the view changes, a message is received, a scan, a free or all recreates of a node
    come back. A scan or a free that fails ends the pass. -/
def step (r : Relocator ν α β ρ) : RelocatorEvent ν α β → Option (Relocator ν α β ρ)
  | .view coordinator members => some { r with coordinator, members }
  | .receive message =>
    match r.progress with
    | .idle =>
      if r.coordinator ≠ r.self then some r
      else match message with
        | .nodeDeparted address => some { r with progress := .scanning (some address) }
        | .relocationSweep => some { r with progress := .scanning none }
    | _ => none
  | .scanned none =>
    match r.progress with
    | .scanning _ => some { r with progress := .idle }
    | _ => none
  | .scanned (some placements) =>
    match r.progress with
    | .scanning address =>
      let departed := r.departedOf address placements
      some (r.relocate decode
        ⟨placements, r.present, departed, survivorCounts departed placements⟩ departed)
    | _ => none
  | .freed ok =>
    match r.progress with
    | .freeing pass orphans =>
      some (if ok then
          r.work pass { orphans with nonRelocatable := orphans.nonRelocatable.tail }
        else { r with progress := .idle })
    | _ => none
  | .recreated placed =>
    match r.progress with
    | .recreating pass owners =>
      some (r.relocate decode { pass with counts := countPlaced pass.counts owners placed }
        pass.departed)
    | _ => none

/-! ### Whom the orders concern -/

/-- The scan of a pass that a departure started finds its address gone, or in no record. -/
def Gone (r : Relocator ν α β ρ) : RelocatorEvent ν α β → Prop
  | .scanned (some placements) =>
    match r.progress with
    | .scanning (some address) => address ∈ placements.map PlacementRecord.owner → address ∉ r.present
    | _ => True
  | _ => True

/-- A name is that of a record the pass read, of an owner that was not a member then. -/
def Concerns (placements : List (PlacementRecord ν α β)) (present : List α) (name : ν) (owner : α) :
    Prop :=
  owner ∉ present ∧ ∃ record ∈ placements, record.name = name ∧ record.owner = owner

/-- The departed nodes to come were no members, or own nothing. -/
def Away (pass : Pass ν α β) : Prop :=
  ∀ owner ∈ pass.departed, owner ∈ pass.placements.map PlacementRecord.owner → owner ∉ pass.present

/-- All orphans are records of the pass, of an owner that was not a member. -/
structure Mine (pass : Pass ν α β) (orphans : Orphans ν α ρ) : Prop where
  singletons : ∀ entry ∈ orphans.singletons,
    Concerns pass.placements pass.present entry.1 orphans.deadOwner
  ordinary : ∀ entry ∈ orphans.ordinary,
    Concerns pass.placements pass.present entry.1 orphans.deadOwner
  nonRelocatable : ∀ name ∈ orphans.nonRelocatable,
    Concerns pass.placements pass.present name orphans.deadOwner

/-- Where the actor waits, its pass is about nodes that were gone. -/
def Waits : Progress ν α β ρ → Prop
  | .freeing pass orphans => Away pass ∧ Mine pass orphans
  | .recreating pass _ => Away pass
  | _ => True

/-- All orders concern records of absent owners, and so will those to come. -/
structure Sound (r : Relocator ν α β ρ) : Prop where
  issued : ∀ i ∈ r.issued, Concerns i.placements i.present i.order.name i.order.deadOwner
  waits : Waits r.progress

variable {decode} {r} {next : Relocator ν α β ρ} {pass : Pass ν α β} {orphans : Orphans ν α ρ}

omit [LinearOrder ν] [LinearOrder α] in
theorem classify_deadOwner (deadOwner : α) : ∀ records : List (PlacementRecord ν α β),
    (classify decode deadOwner records).deadOwner = deadOwner
  | [] => rfl
  | record :: rest => by
      have ih := classify_deadOwner deadOwner rest
      unfold classify
      dsimp only
      split
      · exact ih
      · split
        · exact ih
        · exact ih

omit [LinearOrder ν] [LinearOrder α] in
/-- Orphans are classified, not changed. -/
theorem mine_classify {deadOwner : α} : ∀ {records : List (PlacementRecord ν α β)},
    (∀ record ∈ records, Concerns pass.placements pass.present record.name deadOwner) →
    Mine pass (classify decode deadOwner records)
  | [], _ => ⟨nofun, nofun, nofun⟩
  | record :: rest, h => by
      have hrecord : Concerns pass.placements pass.present record.name
          (classify decode deadOwner rest).deadOwner := by
        rw [classify_deadOwner]
        exact h record (mem_cons_self ..)
      have ih : Mine pass (classify decode deadOwner rest) :=
        mine_classify fun other hother => h other (mem_cons_of_mem _ hother)
      unfold classify
      dsimp only
      split
      · refine ⟨ih.singletons, ih.ordinary, fun name hname => ?_⟩
        rcases mem_cons.mp hname with rfl | hname
        · exact hrecord
        · exact ih.nonRelocatable name hname
      · split
        · refine ⟨fun entry hentry => ?_, ih.ordinary, ih.nonRelocatable⟩
          rcases mem_cons.mp hentry with rfl | hentry
          · exact hrecord
          · exact ih.singletons entry hentry
        · refine ⟨ih.singletons, fun entry hentry => ?_, ih.nonRelocatable⟩
          rcases mem_cons.mp hentry with rfl | hentry
          · exact hrecord
          · exact ih.ordinary entry hentry

/-- A recreate of the plan is one of an orphan. -/
theorem Mine.plan (h : Mine pass orphans) {counts : α → ℕ} {planned : Order ν α ρ × α}
    (hmem : planned ∈ r.plan orphans counts) :
    Concerns pass.placements pass.present planned.1.name planned.1.deadOwner := by
  simp only [Relocator.plan, mem_append, mem_filterMap, mem_map] at hmem
  rcases hmem with ⟨entry, hentry, heq⟩ | ⟨entry, hentry, rfl⟩
  · obtain ⟨assignment, -, rfl⟩ := Option.map_eq_some_iff.mp heq
    exact h.ordinary entry hentry
  · exact h.singletons entry hentry

omit [LinearOrder ν] [LinearOrder α] in
theorem Sound.issue (hs : r.Sound) {orders : List (Order ν α ρ)} {progress : Progress ν α β ρ}
    (horders : ∀ order ∈ orders, Concerns pass.placements pass.present order.name order.deadOwner)
    (hwaits : Waits progress) : Sound { r.issue pass orders with progress } where
  issued i hi := by
    rcases mem_append.mp hi with hi | hi
    · exact hs.issued i hi
    · obtain ⟨order, horder, rfl⟩ := mem_map.mp hi
      exact horders order horder
  waits := hwaits

theorem Sound.work (hs : r.Sound) (haway : Away pass) (hmine : Mine pass orphans) :
    (r.work pass orphans).Sound := by
  unfold Relocator.work
  split
  · rename_i name rest hnames
    refine hs.issue (fun order horder => ?_) ⟨haway, hmine⟩
    obtain rfl := mem_singleton.mp horder
    exact hmine.nonRelocatable name (hnames ▸ mem_cons_self ..)
  · refine hs.issue (fun order horder => ?_) haway
    obtain ⟨planned, hplanned, rfl⟩ := mem_map.mp horder
    exact hmine.plan hplanned

/-- A pass over nodes that were no members, or own nothing, orders nothing else. -/
theorem Sound.relocate (hs : r.Sound) : ∀ {departed : List α},
    Away { pass with departed } → (r.relocate decode pass departed).Sound
  | [], _ => ⟨hs.issued, trivial⟩
  | owner :: rest, haway => by
      have hrest : Away { pass with departed := rest } :=
        fun other hother => haway other (mem_cons_of_mem _ hother)
      unfold Relocator.relocate
      split
      · exact hs.relocate hrest
      · rename_i orphan more horphans
        refine hs.work hrest (mine_classify fun record hrecord => ?_)
        rw [← horphans] at hrecord
        obtain ⟨hmem, howner⟩ := mem_filter.mp hrecord
        have howner : record.owner = owner := of_decide_eq_true howner
        refine ⟨haway owner (mem_cons_self ..) ?_, record, hmem, rfl, howner⟩
        exact mem_map.mpr ⟨record, hmem, howner⟩

theorem Sound.step (hs : r.Sound) {e : RelocatorEvent ν α β} (hcond : r.Gone e)
    (hstep : r.step decode e = some next) : next.Sound := by
  cases e with
  | view coordinator members =>
    cases hstep
    exact ⟨hs.issued, hs.waits⟩
  | receive message =>
    simp only [Relocator.step] at hstep
    split at hstep
    · split at hstep
      · cases hstep
        exact hs
      · split at hstep <;> obtain rfl := Option.some.inj hstep <;> exact ⟨hs.issued, trivial⟩
    · nomatch hstep
  | scanned result =>
    cases result with
    | none =>
      simp only [Relocator.step] at hstep
      split at hstep
      · cases hstep
        exact ⟨hs.issued, trivial⟩
      · nomatch hstep
    | some placements =>
      simp only [Relocator.step] at hstep
      split at hstep
      · rename_i address hscanning
        cases hstep
        refine hs.relocate fun owner howner hplaced => ?_
        cases address with
        | none =>
          simp only [departedOf, mem_reverse, mem_dedup, mem_map, mem_filter,
            decide_eq_true_iff] at howner
          obtain ⟨record, ⟨-, habsent⟩, rfl⟩ := howner
          exact habsent
        | some address =>
          obtain rfl := mem_singleton.mp howner
          rw [Gone, hscanning] at hcond
          exact hcond hplaced
      · nomatch hstep
  | freed ok =>
    simp only [Relocator.step] at hstep
    split at hstep
    · rename_i pass orphans hfreeing
      have hwaits := hs.waits
      rw [hfreeing] at hwaits
      cases hstep
      split
      · exact hs.work hwaits.1 ⟨hwaits.2.singletons, hwaits.2.ordinary, fun name hname =>
          hwaits.2.nonRelocatable name (mem_of_mem_tail hname)⟩
      · exact ⟨hs.issued, trivial⟩
    · nomatch hstep
  | recreated placed =>
    simp only [Relocator.step] at hstep
    split at hstep
    · rename_i pass owners hrecreating
      have hwaits := hs.waits
      rw [hrecreating] at hwaits
      cases hstep
      exact hs.relocate hwaits
    · nomatch hstep

/-- An actor that has handled nothing yet. -/
def create (self coordinator : α) (members : List (RelocationMember α)) : Relocator ν α β ρ :=
  ⟨self, coordinator, members, .idle, []⟩

omit [LinearOrder ν] [LinearOrder α] in
theorem create_sound (self coordinator : α) (members : List (RelocationMember α)) :
    (create self coordinator members : Relocator ν α β ρ).Sound :=
  ⟨(fun _ hi => nomatch hi), trivial⟩

instance decidableGone (r : Relocator ν α β ρ) (e) : Decidable (r.Gone e) := by
  unfold Gone
  split
  · split <;> infer_instance
  · infer_instance

/-- In every run of the actor in which the scan of a departure's pass finds the address of the
    message gone, or in no record: every free and every recreate concerns a record its pass read, of
    an owner that was not a member when it read it. -/
theorem absent_owners_only {self coordinator : α} {members : List (RelocationMember α)}
    {es : List (RelocatorEvent ν α β)}
    (hmeets : Meets (step decode) Gone (create self coordinator members) es)
    (hrun : run (step decode) (create self coordinator members) es = some r) :
    ∀ i ∈ r.issued, ∃ record ∈ i.placements, record.name = i.order.name ∧
      record.owner = i.order.deadOwner ∧ record.owner ∉ i.present := by
  intro i hi
  have hs : r.Sound := run_preserves (fun _ _ _ hs hcond hstep => hs.step hcond hstep)
    (create_sound self coordinator members) hmeets hrun
  obtain ⟨habsent, record, hmem, hname, howner⟩ := hs.issued i hi
  exact ⟨record, hmem, hname, howner, howner ▸ habsent⟩

/-- Every number is the companion of an ordinary actor. -/
def plainCompanion (recipe : ℕ) : Option (Companion ℕ) := some ⟨recipe, false⟩

/-- A ready member. -/
def readyMember (name : ℕ) : RelocationMember ℕ := ⟨name, true, false⟩

/-- Node 2 leaves for good: its actor 8 is freed and its actor 7 recreated, and node 2 was not there
    when the registry was read. -/
theorem departed_node_relocated :
    ∃ r ∈ run (step plainCompanion) (create 1 1 [readyMember 1, readyMember 2])
      [.view 1 [readyMember 1], .receive (.nodeDeparted 2),
        .scanned (some [⟨7, 2, some 5⟩, ⟨8, 2, none⟩, ⟨9, 1, none⟩]), .freed true],
      r.issued.map (fun i => (i.order.name, i.order.deadOwner)) = [(8, 2), (7, 2)] ∧
      ∀ i ∈ r.issued, i.order.deadOwner ∉ i.present := by
  refine ends_imp (P := fun r => r.issued.map (fun i => (i.order.name, i.order.deadOwner)) = [(8,
      2), (7, 2)]) (by decide +kernel) ?_
  intro r hrun hissued
  refine ⟨hissued, fun i hi => ?_⟩
  obtain ⟨record, -, -, howner, habsent⟩ := absent_owners_only (by decide +kernel) hrun i hi
  exact howner ▸ habsent

/-- Node 2 leaves and is back under its address before the message of its departure is received: its
    actor 7 is freed. -/
theorem rejoined_node_relocated :
    ∃ r ∈ run (step plainCompanion) (create 1 1 [readyMember 1, readyMember 2])
      [.view 1 [readyMember 1], .view 1 [readyMember 1, readyMember 2], .receive (.nodeDeparted 2),
        .scanned (some [⟨7, 2, none⟩])],
      r.issued.map (fun i => (i.order.name, i.order.deadOwner, i.present)) = [(7, 2, [1, 2])] := by
  decide +kernel

end Relocator

end Nodeakt.Clustering
