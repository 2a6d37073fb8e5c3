import Summa.Merge.TrainedGate

/-!
# No segment of an older generation is published after a newer one

The producers that matter are those that passed the gate (`ProducerPhase.hot`). `Inv`: what such a producer
has read is what is published; while an update waits, it waits for every one of them; when it may publish,
there is none left. A transaction whose guard is gone holds the state lock, which the publication of a
generation needs too.

The pause of other operations plays no part in this for the producers that read through the gate. A reorder
reads without it, and is covered only as long as the pause lasts; see `Covered` and
`TrainedGate.reorder_after_lost_pause`.
-/

namespace Summa

namespace ProducerPhase

variable {τ : Type}

/-- The producer passed the gate and may have read the trained structures. -/
def hot : ProducerPhase τ → Bool
  | .registered | .captured none => false
  | .passed | .loaded _ _ | .captured (some _) => true

end ProducerPhase

/-- The structures are those of the generation `number`, which are `published`. -/
structure Capture.IsCurrent {τ : Type} (number : Nat) (published : Option τ) (c : Capture τ) : Prop where
  generation : c.generation = number
  trained : published = some c.trained

/-- What the producer has read is what is published. -/
def ProducerPhase.Fresh {τ : Type} (number : Nat) (published : Option τ) : ProducerPhase τ → Prop
  | .loaded generation trained => generation = number ∧ trained = published
  | .captured (some c) => c.IsCurrent number published
  | .registered | .passed | .captured none => True

/-- The update waits for the operation `t`, or has yet to look which ones there are. -/
def UpdatePhase.Awaits (t : Nat) : UpdatePhase → Prop
  | .raised | .paused => True
  | .draining preexisting => t ∈ preexisting
  | .ready => False

namespace TrainedGate

variable {τ : Type} {atomic : Bool} {s s' : TrainedGate τ} {e : GateEvent τ}

/-- Producers that read through the gate, and all of them if updates keep apart. -/
def Covered (atomic gated : Bool) : Prop := gated = true ∨ atomic = true

structure Inv (atomic : Bool) (s : TrainedGate τ) : Prop where
  active : ActiveOk s.active s.guards
  updating : s.updating = s.update.isSome
  fresh : ∀ t p, s.producers t = some p → Covered atomic p.gated → p.phase.Fresh s.generation s.published.trainedVectors
  awaited : ∀ t p u, s.producers t = some p → Covered atomic p.gated → p.phase.hot = true →
    s.update = some u → u.phase.Awaits t
  builds : ∀ builds, s.lock = .segments builds → ∀ b ∈ builds, Covered atomic b.gated →
    ∀ c, b.capture = some c → c.IsCurrent s.generation s.published.trainedVectors
  lease : ∀ next, s.lock = .generation next → ∃ u, s.update = some u ∧ u.phase = .ready ∧ 0 < u.transactions
  /-- With updates apart, an update keeps the pause. -/
  paused : atomic = true → ∀ u, s.update = some u →
    s.pendingResumes = 0 ∧ (u.phase ≠ .raised → s.active.nonIndexingPaused = true)

theorem Inv.init (h : s.Init) : Inv atomic s where
  active := by
    have hguards : s.guards = fun _ => none := by
      funext t
      rw [guards, h.producers]
      rfl
    rw [h.active, hguards]
    exact ActiveOk.new
  updating := by rw [h.updating, h.update]; rfl
  fresh t p hp := by rw [h.producers] at hp; cases hp
  awaited t p u hp := by rw [h.producers] at hp; cases hp
  builds b hb := by rw [h.lock] at hb; cases hb
  lease n hn := by rw [h.lock] at hn; cases hn
  paused _ u hu := by rw [h.update] at hu; cases hu

/-! ## Producers -/

theorem guards_update (s : TrainedGate τ) (active : ActiveOperationState) (t : Nat) (p : Option (Producer τ)) :
    guards { s with active, producers := Function.update s.producers t p } =
      Function.update s.guards t (p.map (·.guard)) := by
  funext t'
  rcases eq_or_ne t' t with rfl | hne
  · simp [guards]
  · simp [guards, hne]

variable {t number : Nat} {p : Producer τ} {u : ArtifactUpdate} {builds : List (Build τ)} {es : List (GateEvent τ)}

/-- A producer of the changed state is the new one or an old one. -/
theorem producers_update {t' : Nat} {p' : Producer τ}
    (h : Function.update s.producers t (some p) t' = some p') :
    (t' = t ∧ p' = p) ∨ s.producers t' = some p' := by
  rcases update_eq_some h with ⟨ht, h⟩ | ⟨-, h⟩
  · exact .inl ⟨ht, (Option.some.inj h).symm⟩
  · exact .inr h

section

variable (h : Inv atomic s)

include h

/-- A new producer that is fresh, and awaited if it is hot. -/
theorem Inv.start {ids : List SegmentId} {indexing vectorUpdate : Bool} {active : ActiveOperationState}
    (hreg : s.active.tryRegisterKind ids indexing vectorUpdate = some (active, p.guard))
    (hfresh : Covered atomic p.gated → p.phase.Fresh s.generation s.published.trainedVectors)
    (hawait : Covered atomic p.gated → p.phase.hot = true → ∀ u, s.update = some u →
      u.phase.Awaits p.guard.operationToken) :
    Inv atomic (s.start active p) where
  __ := h
  active := by
    rw [TrainedGate.start, guards_update]
    exact h.active.register hreg
  fresh t q hq hc := by
    rcases producers_update hq with ⟨-, rfl⟩ | hq
    · exact hfresh hc
    · exact h.fresh t q hq hc
  awaited t q u hq hc hhot hu := by
    rcases producers_update hq with ⟨rfl, rfl⟩ | hq
    · exact hawait hc hhot u hu
    · exact h.awaited t q u hq hc hhot hu
  paused ha u hu := by
    rw [show (s.start active p).active = active from rfl, (ActiveOk.tryRegisterKind_paused hreg).1]
    exact h.paused ha u hu

/-- A producer goes on: it stays fresh, and passes the gate only if it was through or the gate is down. -/
theorem Inv.setPhase {phase : ProducerPhase τ}
    (hp : s.producers t = some p) (hfresh : Covered atomic p.gated → phase.Fresh s.generation s.published.trainedVectors)
    (hhot : phase.hot = true → p.phase.hot = true ∨ s.update = none) : Inv atomic (s.setPhase t p phase) where
  __ := h
  active := by
    have hsame : Function.update s.guards t (some p.guard) = s.guards := by
      rw [Function.update_eq_self_iff, guards, hp]
      rfl
    rw [TrainedGate.setPhase, guards_update, Option.map_some, hsame]
    exact h.active
  fresh t' q hq hc := by
    rcases producers_update hq with ⟨-, rfl⟩ | hq
    · exact hfresh hc
    · exact h.fresh t' q hq hc
  awaited t' q u hq hc hq' hu := by
    rcases producers_update hq with ⟨rfl, rfl⟩ | hq
    · rcases hhot hq' with hold | hnone
      · exact h.awaited t' p u hp hc hold hu
      · rw [show (s.setPhase t' p phase).update = none from hnone] at hu
        cases hu
    · exact h.awaited t' q u hq hc hq' hu

theorem Inv.check (hp : s.producers t = some p) : Inv atomic (s.setPhase t p s.firstCheck) := by
  have hgate := h.updating
  refine h.setPhase hp (fun _ => ?_) fun hhot => .inr ?_
  · unfold firstCheck
    split <;> exact trivial
  · -- the gate is down, so there is no update
    unfold firstCheck at hhot
    split at hhot
    · cases hhot
    · next hdown =>
      rw [hgate] at hdown
      simpa using hdown

theorem Inv.recheck {generation : Nat} {trained : Option τ}
    (hp : s.producers t = some p) (hphase : p.phase = .loaded generation trained) :
    Inv atomic (s.setPhase t p (s.secondCheck generation trained)) := by
  refine h.setPhase hp (fun hc => ?_) fun _ => .inl (by rw [hphase]; rfl)
  have hfresh := h.fresh t p hp hc
  rw [hphase] at hfresh
  obtain ⟨rfl, rfl⟩ := hfresh
  unfold secondCheck
  split
  · exact trivial
  · cases htrained : s.published.trainedVectors with
    | none => exact trivial
    | some trained => exact ⟨rfl, rfl⟩

theorem Inv.drop (hp : s.producers t = some p) :
    Inv atomic { s with
      active := s.active.dropGuard p.guard
      producers := Function.update s.producers t none } := by
  have hguard : s.guards t = some p.guard := by rw [guards, hp]; rfl
  refine { h with active := ?_, fresh := ?_, awaited := ?_ }
  · rw [guards_update]
    exact h.active.drop hguard
  · exact fun t' q hq => h.fresh t' q (of_update_none hq).2
  · exact fun t' q u hq => h.awaited t' q u (of_update_none hq).2

/-! ## Updates -/

/-- The token of a producer is that of a running operation. -/
theorem Inv.mem_tokens (hp : s.producers t = some p) : t ∈ s.active.operationTokens :=
  (h.active.tokens t).mpr ⟨p.guard, by rw [guards, hp]; rfl⟩

variable (hu : s.update = some u)

include hu in
theorem Inv.lease_of {next : Option τ} (hl : s.lock = .generation next) :
    u.phase = .ready ∧ 0 < u.transactions := by
  obtain ⟨v, hv, hlease⟩ := h.lease next hl
  rw [hu, Option.some.injEq] at hv
  exact hv ▸ hlease

include hu in
/-- Only an update that is ready publishes. -/
theorem Inv.lock_ne (hphase : u.phase ≠ .ready) (next : Option τ) : s.lock ≠ .generation next :=
  fun hl => hphase (h.lease_of hu hl).1

include hu in
/-- The update goes on: it waits for all it has to wait for, and is ready while its generation is published. -/
theorem Inv.setUpdate {u' : ArtifactUpdate}
    (hawait : ∀ t p, s.producers t = some p → Covered atomic p.gated → p.phase.hot = true → u'.phase.Awaits t)
    (hlease : ∀ next, s.lock = .generation next → u'.phase = .ready ∧ 0 < u'.transactions)
    (hpaused : atomic = true → u'.phase ≠ .raised → s.active.nonIndexingPaused = true) :
    Inv atomic { s with update := some u' } where
  __ := h
  updating := by rw [h.updating, hu]; rfl
  awaited t p v hp hc hhot hv := Option.some.inj hv ▸ hawait t p hp hc hhot
  lease next hl := ⟨u', rfl, hlease next hl⟩
  paused ha v hv := ⟨(h.paused ha u hu).1, Option.some.inj hv ▸ hpaused ha⟩

include hu in
theorem Inv.snapshot (hphase : u.phase = .paused) :
    Inv atomic { s with
      update := some (if 0 < s.active.drainingOperationTokensSnapshot.2 then { u with requester := false }
        else { u with phase := .draining s.active.drainingOperationTokensSnapshot.1 }) } := by
  have hlock := h.lock_ne hu (by rw [hphase]; nofun)
  split
  · exact h.setUpdate hu (fun t p hp hc hhot => h.awaited t p u hp hc hhot hu) (fun next hl => absurd hl (hlock next))
      fun ha => (h.paused ha u hu).2
  · next hparked =>
    -- no indexing token: the update waits for every operation
    have hnone : s.active.indexingTokens = ∅ := by
      simpa [ActiveOperationState.drainingOperationTokensSnapshot] using hparked
    refine h.setUpdate hu (fun t p hp _ _ => ?_) (fun next hl => absurd hl (hlock next))
      fun ha _ => (h.paused ha u hu).2 (by rw [hphase]; nofun)
    show t ∈ s.active.operationTokens \ s.active.indexingTokens
    rw [hnone, Finset.sdiff_empty]
    exact h.mem_tokens hp

include hu in
theorem Inv.drained {preexisting : Finset Nat} (hphase : u.phase = .draining preexisting)
    (hdone : s.active.OperationsFinished preexisting) :
    Inv atomic { s with update := some { u with phase := .ready } } := by
  have hlock := h.lock_ne hu (by rw [hphase]; nofun)
  refine h.setUpdate hu (fun t p hp hc hhot => ?_) (fun next hl => absurd hl (hlock next))
    fun ha _ => (h.paused ha u hu).2 (by rw [hphase]; nofun)
  -- a hot producer would be one of those it waited for
  have hwait := h.awaited t p u hp hc hhot hu
  rw [hphase] at hwait
  exact absurd hwait (Finset.disjoint_left.mp hdone (h.mem_tokens hp))

include hu in
/-- Changing only who holds the guard of an update. -/
theorem Inv.setGuard {u' : ArtifactUpdate} (hphase : u'.phase = u.phase)
    (hclones : ∀ next, s.lock = .generation next → 0 < u'.transactions) :
    Inv atomic { s with update := some u' } := by
  refine h.setUpdate hu (fun t p hp hc hhot => ?_) (fun next hl => ⟨?_, hclones next hl⟩) fun ha => ?_
  · exact hphase ▸ h.awaited t p u hp hc hhot hu
  · rw [hphase]
    exact (h.lease_of hu hl).1
  · exact hphase ▸ (h.paused ha u hu).2

/-- When a generation is published, no covered producer holds the old one. -/
theorem Inv.publishGeneration {next : Option τ} (hlock : s.lock = .generation next) :
    Inv atomic { s with
      lock := .free
      generation := s.generation + 1
      published := ⟨s.published.publicationId + 1, next⟩ } := by
  obtain ⟨u, hu, hready, -⟩ := h.lease next hlock
  refine { h with fresh := ?_, builds := nofun, lease := nofun }
  intro t p hp hc
  have hcold : p.phase.hot = false := by
    by_contra hhot
    have := h.awaited t p u hp hc (by simpa using hhot) hu
    rw [hready] at this
    exact this
  match p.phase, hcold with
  | .registered, _ => exact trivial
  | .captured none, _ => exact trivial

/-- Every step keeps the invariant. -/
theorem Inv.step (hst : Step atomic s e s') : Inv atomic s' := by
  cases hst with
  | register hreg => exact h.start hreg (fun _ => trivial) (nofun)
  | registerDirect hlock hreg =>
    refine h.start hreg (fun _ => ?_) fun hc _ u hu => ?_
    · cases htrained : s.published.trainedVectors with
      | none => exact trivial
      | some trained => exact ⟨rfl, rfl⟩
    · -- it gets past the pause only before the update has paused
      rcases hc with hgated | ha
      · cases hgated
      · have hpause := (ActiveOk.tryRegisterKind_paused hreg).2 rfl rfl
        have hraised : u.phase = .raised := by
          by_contra hne
          rw [(h.paused ha u hu).2 hne] at hpause
          cases hpause
        rw [hraised]
        exact trivial
  | check hp _ => exact h.check hp
  | load hp hphase => exact h.setPhase hp (fun _ => ⟨rfl, rfl⟩) fun _ => .inl (by rw [hphase]; rfl)
  | recheck hp hphase => exact h.recheck hp hphase
  | drop hp => exact h.drop hp
  | beginSegments hlock hbuilds =>
    refine { h with builds := ?_, lease := nofun }
    intro builds hl b hb hc c hcapture
    obtain rfl : _ = builds := StateLock.segments.inj hl
    obtain ⟨t, p, hp, hphase, hgated⟩ := hbuilds b hb
    have hfresh := h.fresh t p hp (hgated ▸ hc)
    rw [hphase, hcapture] at hfresh
    exact hfresh
  | publishSegments deletes hlock hid =>
    have htrained : (if deletes then { s.published with publicationId := s.published.publicationId + 1 }
        else s.published).trainedVectors = s.published.trainedVectors := by split <;> rfl
    refine { h with fresh := ?_, builds := nofun, lease := nofun }
    intro t p hp hc
    have hfresh := h.fresh t p hp hc
    match hph : p.phase with
    | .registered | .passed | .captured none => exact trivial
    | .loaded g trained =>
      rw [hph] at hfresh
      exact ⟨hfresh.1, hfresh.2.trans htrained.symm⟩
    | .captured (some c) =>
      rw [hph] at hfresh
      exact ⟨hfresh.generation, htrained.trans hfresh.trained⟩
  | failSegments | failGeneration => exact { h with builds := nofun, lease := nofun }
  | raise hgate hatomic =>
    have hnone : s.update = none := by
      have := h.updating
      rw [hgate] at this
      simpa using this.symm
    refine { h with updating := rfl, awaited := ?_, lease := ?_, paused := ?_ }
    · rintro t p u _ _ _ hu
      obtain rfl := Option.some.inj hu
      exact trivial
    · intro next hl
      obtain ⟨u, hu, -⟩ := h.lease next hl
      rw [hnone] at hu
      cases hu
    · rintro ha u hu
      obtain rfl := Option.some.inj hu
      exact ⟨hatomic ha, fun hne => absurd rfl hne⟩
  | pause hu hphase =>
    rename_i u
    refine { h with active := ?_, updating := ?_, awaited := ?_, lease := ?_, paused := ?_ }
    · exact h.active.flags rfl rfl rfl
    · rw [h.updating, hu]; rfl
    · rintro t p v _ _ _ hv
      obtain rfl := Option.some.inj hv
      exact trivial
    · exact fun next hl => absurd hl (h.lock_ne hu (by rw [hphase]; nofun) next)
    · rintro ha v hv
      exact ⟨(h.paused ha u hu).1, fun _ => rfl⟩
  | snapshot hu hphase => exact h.snapshot hu hphase
  | drained hu hphase hdone => exact h.drained hu hphase hdone
  | dropRequester hu => exact h.setGuard hu rfl fun next hl => (h.lease_of hu hl).2
  | beginGeneration next hlock hu hphase hrequester =>
    rename_i u
    have h' : Inv atomic { s with update := some { u with transactions := u.transactions + 1 } } :=
      h.setGuard hu rfl fun _ _ => Nat.succ_pos _
    refine { h' with builds := nofun, lease := ?_ }
    intro next' _
    exact ⟨_, rfl, hphase, Nat.succ_pos _⟩
  | publishGeneration hlock hid => exact h.publishGeneration hlock
  | endTransaction hu hfree =>
    refine h.setGuard hu rfl fun next hl => ?_
    have := hfree next hl
    show 0 < _ - 1
    omega
  | release hu hrequester hclones =>
    refine { h with updating := rfl, awaited := nofun, lease := ?_, paused := nofun }
    intro next hl
    have := (h.lease_of hu hl).2
    omega
  | resume hpending =>
    refine { h with active := ?_, paused := ?_ }
    · exact h.active.flags rfl rfl rfl
    · intro ha u hu
      have := (h.paused ha u hu).1
      omega
  | stopMaintenance | stopAccepting =>
    exact { h with active := h.active.flags rfl rfl rfl }

end

theorem inductive_inv (atomic : Bool) : (trainedGate τ atomic).Inductive (Inv atomic) :=
  ⟨fun _ h => .init h, fun _ _ _ h hst => h.step hst⟩

/-! ## Publications -/

/-- A segment is published with the structures that are published at that time. -/
theorem Inv.publishes (h : Inv atomic s) (hst : Step atomic s (.segments builds) s') :
    ∀ b ∈ builds, Covered atomic b.gated → ∀ c, b.capture = some c →
      c.IsCurrent s.generation s.published.trainedVectors := by
  cases hst with
  | publishSegments _ hlock _ => exact h.builds builds hlock

/-- A step that a run can follow. -/
theorem Step.run (hst : Step atomic s e s') (h : ∃ s'', (trainedGate τ atomic).Run s' es s'') :
    ∃ s'', (trainedGate τ atomic).Run s (e :: es) s'' := h.imp fun _ hrun => .cons hst hrun

theorem Step.generation_le (hst : Step atomic s e s') : s.generation ≤ s'.generation := by
  cases hst with
  | publishGeneration => exact Nat.le_succ _
  | _ => exact Nat.le_refl _

theorem Step.generation_eq (hst : Step atomic s (.generation number) s') : s'.generation = number := by
  cases hst with
  | publishGeneration => rfl

theorem run_generation_le (hrun : (trainedGate τ atomic).Run s es s') : s.generation ≤ s'.generation := by
  induction hrun with
  | nil => exact Nat.le_refl _
  | cons hst _ ih => exact Nat.le_trans (Step.generation_le hst) ih

/-- In a run, a segment that is published after a generation was built with that one or a later one. -/
theorem run_covered {before between after : List (GateEvent τ)}
    (hinit : s.Init) (hrun : (trainedGate τ atomic).Run s es s')
    (hes : es = before ++ .generation number :: (between ++ .segments builds :: after)) :
    ∀ b ∈ builds, Covered atomic b.gated → ∀ c, b.capture = some c → number ≤ c.generation := by
  subst hes
  obtain ⟨s₁, hbefore, hrest⟩ := hrun.of_append
  cases hrest with
  | @cons _ s₂ _ _ _ hgen hrest =>
    obtain ⟨s₃, hbetween, hrest⟩ := hrest.of_append
    cases hrest with
    | cons hseg _ =>
      have hreach : (trainedGate τ atomic).Reach s₃ :=
        hbetween.reach (.step (hbefore.reach (.init hinit)) hgen)
      intro b hb hc c hcapture
      have hcurrent := ((inductive_inv atomic).reach hreach).publishes hseg b hb hc c hcapture
      have hnumber := Step.generation_eq hgen
      have hle := run_generation_le hbetween
      rw [hcurrent.generation]
      omega

/-- Under every interleaving of producers and updates, a segment whose producer read the trained structures
with `trained_for_segment_build` is published with the structures of the published generation, and so never
with those of an older generation than one that was published before it. -/
theorem no_older_generation (τ : Type) :
    (∀ s, (trainedGate τ false).Reach s → ∀ builds s', (trainedGate τ false).step s (.segments builds) s' →
      ∀ b ∈ builds, b.gated = true → ∀ c, b.capture = some c →
        c.generation = s.generation ∧ s.published.trainedVectors = some c.trained) ∧
    ∀ s es s', (trainedGate τ false).init s → (trainedGate τ false).Run s es s' →
      ∀ before number between builds after,
        es = before ++ .generation number :: (between ++ .segments builds :: after) →
        ∀ b ∈ builds, b.gated = true → ∀ c, b.capture = some c → ¬ c.generation < number := by
  constructor
  · intro s hreach builds s' hst b hb hgated c hcapture
    have hcurrent := ((inductive_inv false).reach hreach).publishes hst b hb (.inl hgated) c hcapture
    exact ⟨hcurrent.generation, hcurrent.trained⟩
  · intro s es s' hinit hrun before number between builds after hes b hb hgated c hcapture
    exact Nat.not_lt.mpr (run_covered hinit hrun hes b hb (.inl hgated) c hcapture)

/-- If no update begins before the one before it has ended its pause, the same holds of every producer,
reorders included. -/
theorem no_older_generation_of_atomic {before between after : List (GateEvent τ)}
    (hinit : s.Init) (hrun : (trainedGate τ true).Run s es s')
    (hes : es = before ++ .generation number :: (between ++ .segments builds :: after)) :
    ∀ b ∈ builds, ∀ c, b.capture = some c → ¬ c.generation < number := fun b hb c hcapture =>
  Nat.not_lt.mpr (run_covered hinit hrun hes b hb (.inr rfl) c hcapture)

/-- A manager with trained structures. -/
def opened : TrainedGate Nat := ⟨.new, false, ⟨0, some 10⟩, 0, fun _ => none, none, 0, .free⟩

theorem opened_init : opened.Init := ⟨rfl, rfl, rfl, rfl, rfl, rfl⟩

/-- The events up to the publication of the second of two producers. A merge has its capture before an update begins,
which waits for it; an indexing worker registers during the update. -/
def overlapping : List (GateEvent Nat) :=
  List.replicate 9 .internal ++ .segments [⟨true, some ⟨0, 10⟩⟩] :: (List.replicate 3 .internal ++
    .generation 1 :: List.replicate 7 .internal)

/-- The segment of the worker is published with the structures of the new generation. -/
theorem no_older_generation_sample : ∃ s s', (trainedGate Nat false).Run opened overlapping s ∧
    (trainedGate Nat false).step s (.segments [⟨true, some ⟨1, 20⟩⟩]) s' ∧
    (1 = s.generation ∧ s.published.trainedVectors = some 20) ∧ ¬ (⟨1, 20⟩ : Capture Nat).generation < 1 := by
  have hrun : ∃ s', (trainedGate Nat false).Run opened (overlapping ++ [.segments [⟨true, some ⟨1, 20⟩⟩]]) s' := by
    refine Step.run
      (.register (show ActiveOperationState.tryRegisterKind _ [] false false = some _ from rfl)) ?_
    refine Step.run (.check (t := 0) rfl rfl) ?_
    refine Step.run (.load (t := 0) rfl rfl) ?_
    refine Step.run (.recheck (t := 0) rfl rfl) ?_
    refine Step.run (.raise rfl nofun) ?_
    refine Step.run (.pause rfl rfl) ?_
    refine Step.run (.snapshot rfl rfl) ?_
    refine Step.run
      (.register (show ActiveOperationState.tryRegisterKind _ [] true false = some _ from rfl)) ?_
    refine Step.run (.beginSegments rfl
      (show ∀ b ∈ [(⟨true, some ⟨0, 10⟩⟩ : Build Nat)], _ from
        List.forall_mem_singleton.mpr ⟨0, _, rfl, rfl, rfl⟩)) ?_
    refine Step.run (.publishSegments false rfl nofun) ?_
    refine Step.run (.drop (t := 0) rfl) ?_
    refine Step.run (.drained rfl rfl ?_) ?_
    · unfold ActiveOperationState.OperationsFinished
      decide +kernel
    refine Step.run (.beginGeneration (some 20) rfl rfl rfl rfl) ?_
    refine Step.run (.publishGeneration rfl (by decide)) ?_
    refine Step.run (.dropRequester rfl) ?_
    refine Step.run (.endTransaction rfl nofun) ?_
    refine Step.run (.release rfl rfl rfl) ?_
    refine Step.run (.check (t := 1) rfl rfl) ?_
    refine Step.run (.load (t := 1) rfl rfl) ?_
    refine Step.run (.recheck (t := 1) rfl rfl) ?_
    refine Step.run (.beginSegments rfl
      (show ∀ b ∈ [(⟨true, some ⟨1, 20⟩⟩ : Build Nat)], _ from
        List.forall_mem_singleton.mpr ⟨1, _, rfl, rfl, rfl⟩)) ?_
    exact Step.run (.publishSegments false rfl nofun) ⟨_, .nil⟩
  obtain ⟨s', hrun⟩ := hrun
  obtain ⟨s, hbefore, hrest⟩ := hrun.of_append
  cases hrest with
  | @cons _ s₁ _ _ _ hst _ =>
    have hcurrent := (no_older_generation Nat).1 s (hbefore.reach (.init opened_init)) _ s₁ hst _ (.head _) rfl _ rfl
    exact ⟨s, s₁, hbefore, hst, hcurrent, (no_older_generation Nat).2 opened _ s' opened_init hrun
      (List.replicate 9 .internal ++ .segments [⟨true, some ⟨0, 10⟩⟩] :: List.replicate 3 .internal) 1
      (List.replicate 7 .internal) [⟨true, some ⟨1, 20⟩⟩] [] rfl _ (.head _) rfl _ rfl⟩

/-- The pause of one update ended by the one before it: a reorder registers while the second update holds its
lease, reads the old structures, and publishes after the new generation. -/
theorem reorder_after_lost_pause : ∃ s', (trainedGate Nat false).Run opened
    (List.replicate 13 .internal ++ .generation 1 :: (.internal ::
      .segments [⟨false, some ⟨0, 10⟩⟩] :: [])) s' := by
  -- the first update ends, but for its pause
  refine Step.run (.raise rfl nofun) ?_
  refine Step.run (.pause rfl rfl) ?_
  refine Step.run (.snapshot rfl rfl) ?_
  refine Step.run (.drained rfl rfl (Finset.disjoint_empty_left _)) ?_
  refine Step.run (.dropRequester rfl) ?_
  refine Step.run (.release rfl rfl rfl) ?_
  -- the second one begins
  refine Step.run (.raise rfl nofun) ?_
  refine Step.run (.pause rfl rfl) ?_
  refine Step.run (.snapshot rfl rfl) ?_
  refine Step.run (.drained rfl rfl (Finset.disjoint_empty_left _)) ?_
  -- and loses its pause
  refine Step.run (.resume (by decide)) ?_
  refine Step.run
    (.registerDirect rfl (show ActiveOperationState.tryRegister _ [] = some _ from rfl)) ?_
  refine Step.run (.beginGeneration (some 20) rfl rfl rfl rfl) ?_
  refine Step.run (.publishGeneration rfl (by decide)) ?_
  refine Step.run (.beginSegments rfl
    (show ∀ b ∈ [(⟨false, some ⟨0, 10⟩⟩ : Build Nat)], _ from
      List.forall_mem_singleton.mpr ⟨0, _, rfl, rfl, rfl⟩)) ?_
  exact Step.run (.publishSegments false rfl nofun) ⟨_, .nil⟩

end TrainedGate

end Summa
