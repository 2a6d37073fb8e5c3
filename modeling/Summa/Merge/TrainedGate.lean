import Mathlib.Data.Finset.Card
import Summa.Lib.Lts
import Summa.Merge.ActiveOperations

/-!
# The gate on trained vector structures (`merge/segment_manager.rs`)

A segment is built with the trained structures of the generation that is published at that time. An update
of the trained structures raises a gate, waits for the producers that may hold the old ones, and publishes a
new generation. All parties run as one transition system; each access to shared memory is a step.

* Producers register an operation and call `trained_for_segment_build`: a look at the gate (`check`), the
  read of the published generation (`load`), a second look (`recheck`). They publish in a transaction that
  holds the state lock (`beginSegments`, `publishSegments`), or end without. A guard may be dropped at any
  time, also while the transaction runs on its own.
* A reorder does not call `trained_for_segment_build`: it reads the published generation when it registers,
  under the state lock (`registerDirect`).
* Updates: `begin_vector_artifact_update` is `raise`, `pause`, `snapshot`, `drained`; then
  `publish_vector_generation` (`beginGeneration`, `publishGeneration`). The guard has clones, one in each
  detached transaction; when the last one is gone, the gate falls (`release`) and, in a second step, the
  pause ends (`resume`).
* A commit that deletes rows publishes the same trained structures under a new publication number.

`atomic` restricts the runs: no update begins between the two steps that end another one.
-/

namespace Summa

namespace ActiveOperationState

/-- The tokens of the operations that end on their own, and the number of indexing tokens. -/
def drainingOperationTokensSnapshot (self : ActiveOperationState) : Finset Nat × Nat :=
  (self.operationTokens \ self.indexingTokens, self.indexingTokens.card)

/-- The condition that `wait_until_operations_finish` waits for. -/
def OperationsFinished (self : ActiveOperationState) (operations : Finset Nat) : Prop :=
  Disjoint self.operationTokens operations

end ActiveOperationState

variable (τ : Type)

/-- `PublishedIndexGeneration`, without the schema. -/
structure PublishedGeneration where
  publicationId : Nat
  trainedVectors : Option τ

/-- Trained structures, with the number of the generation they were read from. -/
structure Capture where
  generation : Nat
  trained : τ

/-- Where a producer is. -/
inductive ProducerPhase where
  | registered
  /-- The gate was down at the first look. -/
  | passed
  | loaded (generation : Nat) (trained : Option τ)
  /-- The segment is built with these structures, or flat. -/
  | captured (capture : Option (Capture τ))

structure Producer where
  guard : SegmentOperationGuard
  /-- It reads the trained structures with `trained_for_segment_build`. -/
  gated : Bool
  phase : ProducerPhase τ

/-- A built segment. -/
structure Build where
  gated : Bool
  capture : Option (Capture τ)

/-- Where an update is. -/
inductive UpdatePhase where
  /-- The gate is up. -/
  | raised
  /-- Non-indexing operations are paused. -/
  | paused
  /-- It waits for these operations. -/
  | draining (preexisting : Finset Nat)
  /-- `begin_vector_artifact_update` returned. -/
  | ready

structure ArtifactUpdate where
  phase : UpdatePhase
  /-- The requesting future still has its guard. -/
  requester : Bool
  /-- The detached transactions that have a clone of the guard. -/
  transactions : Nat

/-- Who holds the state lock. -/
inductive StateLock where
  | free
  /-- A transaction that publishes segments. -/
  | segments (builds : List (Build τ))
  /-- A transaction that publishes a generation. -/
  | generation (next : Option τ)

structure TrainedGate where
  active : ActiveOperationState
  /-- `vector_artifact_update`: the gate. -/
  updating : Bool
  published : PublishedGeneration τ
  /-- The number of generations that updates have published. -/
  generation : Nat
  /-- The producers whose guards live, by token. -/
  producers : Nat → Option (Producer τ)
  update : Option ArtifactUpdate
  /-- Ended updates that have still to end their pause. -/
  pendingResumes : Nat
  lock : StateLock τ

/-- What a step publishes. -/
inductive GateEvent where
  | segments (builds : List (Build τ))
  | generation (number : Nat)
  | internal

namespace TrainedGate

variable {τ : Type}

variable (s : TrainedGate τ)

def guards (t : Nat) : Option SegmentOperationGuard := (s.producers t).map (·.guard)

/-- A producer has registered. -/
def start (active : ActiveOperationState) (p : Producer τ) : TrainedGate τ :=
  { s with active, producers := Function.update s.producers p.guard.operationToken (some p) }

def setPhase (t : Nat) (p : Producer τ) (phase : ProducerPhase τ) : TrainedGate τ :=
  { s with producers := Function.update s.producers t (some { p with phase }) }

/-- The first look of `trained_for_segment_build` at the gate. -/
def firstCheck : ProducerPhase τ := if s.updating then .captured none else .passed

/-- Its second look: what it read counts only if the gate is still down. -/
def secondCheck (generation : Nat) (trained : Option τ) : ProducerPhase τ :=
  .captured (if s.updating then none else trained.map fun trained => ⟨generation, trained⟩)

/-- The steps of all parties. -/
inductive Step (atomic : Bool) : TrainedGate τ → GateEvent τ → TrainedGate τ → Prop
  | register {s : TrainedGate τ} {ids indexing vectorUpdate active guard}
    (hreg : s.active.tryRegisterKind ids indexing vectorUpdate = some (active, guard)) :
    Step atomic s .internal (s.start active ⟨guard, true, .registered⟩)
  /-- A reorder registers and reads the published generation. -/
  | registerDirect {s : TrainedGate τ} {ids active guard} (hlock : s.lock = .free)
    (hreg : s.active.tryRegister ids = some (active, guard)) :
    Step atomic s .internal (s.start active ⟨guard, false,
      .captured (s.published.trainedVectors.map fun trained => ⟨s.generation, trained⟩)⟩)
  | check {s : TrainedGate τ} {t p} (hp : s.producers t = some p) (hphase : p.phase = .registered) :
    Step atomic s .internal (s.setPhase t p s.firstCheck)
  | load {s : TrainedGate τ} {t p} (hp : s.producers t = some p) (hphase : p.phase = .passed) :
    Step atomic s .internal (s.setPhase t p (.loaded s.generation s.published.trainedVectors))
  | recheck {s : TrainedGate τ} {t p generation trained} (hp : s.producers t = some p)
    (hphase : p.phase = .loaded generation trained) :
    Step atomic s .internal (s.setPhase t p (s.secondCheck generation trained))
  /-- A producer is done, gives up or is cancelled: its guard goes. -/
  | drop {s : TrainedGate τ} {t p} (hp : s.producers t = some p) :
    Step atomic s .internal { s with
      active := s.active.dropGuard p.guard
      producers := Function.update s.producers t none }
  /-- A commit or a replacement takes the state lock and runs on its own from here. -/
  | beginSegments {s : TrainedGate τ} {builds : List (Build τ)} (hlock : s.lock = .free)
    (hbuilds : ∀ b ∈ builds, ∃ t p, s.producers t = some p ∧ p.phase = .captured b.capture ∧
      p.gated = b.gated) :
    Step atomic s .internal { s with lock := .segments builds }
  /-- The segments are published; with deletions, the publication number goes up. -/
  | publishSegments {s : TrainedGate τ} {builds} (deletes : Bool) (hlock : s.lock = .segments builds)
    (hid : deletes = true → s.published.publicationId + 1 < 2 ^ 64) :
    Step atomic s (.segments builds) { s with
      lock := .free
      published := if deletes then { s.published with publicationId := s.published.publicationId + 1 }
        else s.published }
  | failSegments {s : TrainedGate τ} {builds} (hlock : s.lock = .segments builds) :
    Step atomic s .internal { s with lock := .free }
  /-- The exchange of the gate; it fails while another update has it. -/
  | raise {s : TrainedGate τ} (hgate : s.updating = false) (hatomic : atomic = true → s.pendingResumes = 0) :
    Step atomic s .internal { s with updating := true, update := some ⟨.raised, true, 0⟩ }
  | pause {s : TrainedGate τ} {u} (hu : s.update = some u) (hphase : u.phase = .raised) :
    Step atomic s .internal { s with
      active := s.active.pauseNonIndexing
      update := some { u with phase := .paused } }
  /-- With built but uncommitted segments the update is refused and its guard dropped. -/
  | snapshot {s : TrainedGate τ} {u} (hu : s.update = some u) (hphase : u.phase = .paused) :
    Step atomic s .internal { s with
      update := some (if 0 < s.active.drainingOperationTokensSnapshot.2 then { u with requester := false }
        else { u with phase := .draining s.active.drainingOperationTokensSnapshot.1 }) }
  | drained {s : TrainedGate τ} {u preexisting} (hu : s.update = some u)
    (hphase : u.phase = .draining preexisting) (hdone : s.active.OperationsFinished preexisting) :
    Step atomic s .internal { s with update := some { u with phase := .ready } }
  /-- The requesting future ends or is cancelled. -/
  | dropRequester {s : TrainedGate τ} {u} (hu : s.update = some u) :
    Step atomic s .internal { s with update := some { u with requester := false } }
  /-- The publication of a generation takes the state lock, and a clone of the guard. -/
  | beginGeneration {s : TrainedGate τ} {u} (next : Option τ) (hlock : s.lock = .free)
    (hu : s.update = some u) (hphase : u.phase = .ready) (hrequester : u.requester = true) :
    Step atomic s .internal { s with
      lock := .generation next
      update := some { u with transactions := u.transactions + 1 } }
  | publishGeneration {s : TrainedGate τ} {next} (hlock : s.lock = .generation next)
    (hid : s.published.publicationId + 1 < 2 ^ 64) :
    Step atomic s (.generation (s.generation + 1)) { s with
      lock := .free
      generation := s.generation + 1
      published := ⟨s.published.publicationId + 1, next⟩ }
  | failGeneration {s : TrainedGate τ} {next} (hlock : s.lock = .generation next) :
    Step atomic s .internal { s with lock := .free }
  /-- A detached publication ends, after it gave the state lock back. -/
  | endTransaction {s : TrainedGate τ} {u} (hu : s.update = some u)
    (hfree : ∀ next, s.lock = .generation next → 2 ≤ u.transactions) :
    Step atomic s .internal { s with update := some { u with transactions := u.transactions - 1 } }
  /-- The last clone of the guard is dropped: the gate falls. -/
  | release {s : TrainedGate τ} {u} (hu : s.update = some u) (hrequester : u.requester = false)
    (hclones : u.transactions = 0) :
    Step atomic s .internal { s with
      updating := false
      update := none
      pendingResumes := s.pendingResumes + 1 }
  | resume {s : TrainedGate τ} (hpending : 0 < s.pendingResumes) :
    Step atomic s .internal { s with
      active := s.active.resumeNonIndexing
      pendingResumes := s.pendingResumes - 1 }
  | stopMaintenance {s : TrainedGate τ} :
    Step atomic s .internal { s with active := s.active.stopMaintenance }
  | stopAccepting {s : TrainedGate τ} :
    Step atomic s .internal { s with active := s.active.stopAccepting }

/-- A manager that was just opened; its trained structures are loaded before anyone else sees it. -/
structure Init : Prop where
  active : s.active = .new
  updating : s.updating = false
  producers : s.producers = fun _ => none
  update : s.update = none
  pendingResumes : s.pendingResumes = 0
  lock : s.lock = .free

end TrainedGate

/-- Producers and updates over trained structures `τ`. -/
def trainedGate (τ : Type) (atomic : Bool) : Lts (TrainedGate τ) (GateEvent τ) where
  init := TrainedGate.Init
  step := TrainedGate.Step atomic

end Summa
