import TurboMemory.Segments.Open

/-!
# Publication of segments under concurrency

Threads insert, seal, build, merge, compact and publish at the same time. Every lock-protected
section, the building of a snapshot and its publication are steps of their own; the optimizer's
budget, and whether a build succeeds, are choices of the event (`Shared.step`). Offsets of records
that are gone stay in segments; they count as inserted and deleted.

## Main results

* `searchable_of_undisturbed` — in a run whose steps are all `Undisturbed` every live offset stays
  searchable.
* `start_of_openSegments` — an opened store is a state to start from.
* `searchable_swap_iff` — what is asked of a swap is needed.
* `searchable_fails_after_swap` — sealing a segment hides it until the next snapshot is published.
-/

set_option autoImplicit false

namespace TurboMemory

open Holder List

/-! ## The system -/

/-- The outcome of building a segment. -/
inductive Built
  | sealed (offsets : List PointOffset)
  | warm (offsets : List PointOffset)
  /-- The build failed, and the plain segment goes back into the queue. -/
  | failed (plain : Segment)

/-- The offsets it will put into a list. -/
@[simp] def Built.offsets : Built → List PointOffset
  | .sealed offsets => offsets
  | .warm offsets => offsets
  | .failed plain => plain.offsets

/-- What a thread is in the middle of. -/
inductive Task
  | idle
  /-- `seal_hot` has swapped the mutable segment, and the full one is to be queued. -/
  | swapped (old : HotSegment)
  /-- The optimizer took a plain segment from the queue. -/
  | building (plain : Segment)
  /-- It has built the segment, and the plain one is to be removed. -/
  | ready (plain : Segment) (built : Built)
  /-- Segments were removed, and what replaces them is to be listed. -/
  | installing (built : Built)
  /-- A merge has chosen its segments. -/
  | merging (targets : List Segment)
  /-- It has built the merged one, and the others are to be removed. -/
  | merged (targets : List Segment) (offsets : List PointOffset)
  /-- `compact_warm` has chosen its segments. -/
  | compacting (targets : List Segment)
  /-- It has built the cold segment. -/
  | compacted (targets : List Segment) (cold : Option (List PointOffset))
  /-- `publish_snapshot` is to build a snapshot. -/
  | publishing
  /-- It has built one, which is to be published. -/
  | built (snapshot : List Segment)

namespace Task

/-- The offsets that are in no list while the thread moves them. -/
@[simp] def carried : Task → List PointOffset
  | .swapped old => old.offsets
  | .installing b => b.offsets
  | _ => []

/-- The handles the thread holds. -/
@[simp] def segments : Task → List Segment
  | .building plain => [plain]
  | .ready plain (.failed plain') => [plain, plain']
  | .ready plain _ => [plain]
  | .installing (.failed plain) => [plain]
  | .merging targets => targets
  | .merged targets _ => targets
  | .compacting targets => targets
  | .compacted targets _ => targets
  | _ => []

/-- The snapshot the thread is about to publish. -/
@[simp] def snapshot? : Task → Option (List Segment)
  | .built snapshot => some snapshot
  | _ => none

/-- The offsets it moves or is going to put into a list. -/
@[simp] def pending : Task → List PointOffset
  | .swapped old => old.offsets
  | .ready _ b => b.offsets
  | .installing b => b.offsets
  | .merged _ offsets => offsets
  | .compacted _ cold => cold.getD []
  | _ => []

/-- The segments these are going to replace. -/
@[simp] def replaced : Task → List Segment
  | .ready plain _ => [plain]
  | .merged targets _ => targets
  | .compacted targets _ => targets
  | _ => []

/-- The thread has taken a segment out of one list and not yet put it into the next. -/
@[simp] def InFlight : Task → Bool
  | .swapped _ => true
  | .installing _ => true
  | _ => false

end Task

/-- The state of the system: the holder, the offsets with a vector, those ever inserted and deleted,
and what every thread does. -/
structure Shared (T : Type) where
  holder : Holder
  vectors : Finset PointOffset
  inserted : Finset PointOffset
  deleted : Finset PointOffset
  task : T → Task

/-- How a build ends. -/
inductive Outcome
  | sealed
  | warm
  | failed
deriving DecidableEq

/-- What a thread does next. -/
inductive Event
  /-- Store the vector of an offset. -/
  | put (offset : PointOffset)
  | insert (offset : PointOffset) (embedding : Embedding)
  | delete (offset : PointOffset)
  | swapHot
  | queue
  | popSealingPlain
  | build (outcome : Outcome)
  | removeSealingPlain
  | install
  | chooseMerge
  | buildMerge (succeeds : Bool)
  | removeSealedHot
  | chooseWarm
  | buildCold (succeeds : Bool)
  | installCold
  | startPublish
  | buildSnapshot
  | store
deriving DecidableEq

namespace Shared

variable {T : Type} [DecidableEq T]

variable (s : Shared T)

/-- The thread goes on with another task, over another holder. -/
def go (t : T) (holder : Holder) (task : Task) : Shared T :=
  { s with holder := holder, task := Function.update s.task t task }

/-- The offsets of a list that have a vector. -/
def withVectors (offsets : List PointOffset) : List PointOffset :=
  offsets.filter (· ∈ s.vectors)

/-- Build the replacement of a plain segment from the vectors of its offsets. -/
def buildSegment (plain : Segment) (outcome : Outcome) : Built :=
  let offsets := s.withVectors plain.offsets
  if offsets = [] then .failed plain
  else
    match outcome with
    | .sealed => .sealed offsets
    | .warm => .warm offsets
    | .failed => .failed plain

/-- One step of a thread; none if the thread is not at it. -/
def step (config : TierConfig) (s : Shared T) (t : T) (e : Event) : Option (Shared T) :=
  match s.task t, e with
  | .idle, .put offset => some { s with vectors := insert offset s.vectors }
  | .idle, .insert offset embedding =>
    -- The vector is stored first, and offsets are never used twice.
    if offset ∈ s.vectors ∧ offset ∉ s.inserted then
      match s.holder.insert config offset embedding with
      | .ok (_, h) => some { s with holder := h, inserted := insert offset s.inserted }
      | .error _ => some s
    else none
  | .idle, .delete offset => some { s with deleted := insert offset s.deleted }
  | .idle, .swapHot =>
    match s.holder.swapHot config with
    | none => some s
    | some (old, h) => some (s.go t h (.swapped old))
  | .swapped old, .queue => some (s.go t (s.holder.pushSealing old.offsets) .publishing)
  | .idle, .popSealingPlain =>
    match s.holder.popSealingPlain with
    | none => some s
    | some (plain, h) => some (s.go t h (.building plain))
  | .building plain, .build outcome =>
    if plain.offsets = [] then some (s.go t (s.holder.removeSealingPlain plain) .publishing)
    else some (s.go t s.holder (.ready plain (s.buildSegment plain outcome)))
  | .ready plain built, .removeSealingPlain =>
    some (s.go t (s.holder.removeSealingPlain plain) (.installing built))
  | .installing (.sealed offsets), .install =>
    some (s.go t (s.holder.pushSealedHot offsets) .publishing)
  | .installing (.warm offsets), .install =>
    some (s.go t (s.holder.pushWarm offsets) .publishing)
  | .installing (.failed plain), .install =>
    some (s.go t (s.holder.pushBack plain) .publishing)
  | .idle, .chooseMerge =>
    match s.holder.sealedHotMergeCandidates config with
    | none => some s
    | some targets => some (s.go t s.holder (.merging targets))
  | .merging targets, .buildMerge succeeds =>
    let offsets := (targets.flatMap Segment.offsets).dedup
    if offsets = [] then
      some (s.go t (s.holder.removeSealedHotSegments targets) .publishing)
    else if s.withVectors offsets = [] ∨ !succeeds then some (s.go t s.holder .idle)
    else some (s.go t s.holder (.merged targets (s.withVectors offsets)))
  | .merged targets offsets, .removeSealedHot =>
    some (s.go t (s.holder.removeSealedHotSegments targets) (.installing (.sealed offsets)))
  | .idle, .chooseWarm =>
    match s.holder.warmTargets config with
    | none => some s
    | some targets => some (s.go t s.holder (.compacting targets))
  | .compacting targets, .buildCold succeeds =>
    let offsets := s.withVectors (targets.flatMap Segment.offsets).dedup
    if offsets = [] then some (s.go t s.holder (.compacted targets none))
    else if succeeds then some (s.go t s.holder (.compacted targets (some offsets)))
    else some (s.go t s.holder .idle)
  | .compacted targets cold, .installCold =>
    some (s.go t (s.holder.installCold cold targets) .publishing)
  | .idle, .startPublish => some (s.go t s.holder .publishing)
  | .publishing, .buildSnapshot => some (s.go t s.holder (.built s.holder.buildSnapshot))
  | .built snapshot, .store => some (s.go t (s.holder.store snapshot) .idle)
  | _, _ => none

/-- An offset was inserted and not deleted. -/
def Live (o : PointOffset) : Prop := o ∈ s.inserted ∧ o ∉ s.deleted

/-- Every live offset is in some segment of the published snapshot. -/
def Searchable : Prop := ∀ o, s.Live o → s.holder.Covers o

/-- A swap takes only offsets away that other segments of the published snapshot have, and of every
snapshot about to be published; and a snapshot is built while no segment is between lists. -/
def Undisturbed (config : TierConfig) (s : Shared T) : Event → Prop
  | .swapHot => config.hotCapacity ≤ s.holder.hot.offsets.length →
      ∀ o ∈ s.holder.hot.offsets, s.Live o → (∃ seg ∈ s.holder.published, o ∈ seg.offsets) ∧
          ∀ t snapshot, (s.task t).snapshot? = some snapshot → ∃ seg ∈ snapshot, o ∈ seg.offsets
  | .buildSnapshot => ∀ t, (s.task t).InFlight = false
  | _ => True

/-- The states of the runs whose steps all satisfy the condition. -/
inductive Run (config : TierConfig) (s : Shared T) : Shared T → Prop
  | refl : Run config s s
  | step {s' s'' : Shared T} (t : T) (e : Event) : Run config s s' → s'.Undisturbed config e →
      s'.step config t e = some s'' → Run config s s''

/-- Take steps one after the other. -/
def steps (config : TierConfig) : Shared T → List (T × Event) → Option (Shared T)
  | s, [] => some s
  | s, (t, e) :: events => (s.step config t e).bind fun s' => steps config s' events

/-! ## The invariant -/

/-- A segment in a list or in the hands of a thread. -/
def Known (seg : Segment) : Prop :=
  seg ∈ s.holder.lists.all ∨ ∃ t, seg ∈ (s.task t).segments

/-- An offset is in a segment of some list. -/
def Listed (o : PointOffset) : Prop := ∃ seg ∈ s.holder.lists.all, o ∈ seg.offsets

/-- What a task is going to put in the place of segments has their live offsets. -/
def Replaces (k : Task) : Prop :=
  ∀ o, s.Live o → ∀ seg ∈ k.replaced, o ∈ seg.offsets → o ∈ k.pending

/-- The invariant of the system. -/
structure Inv (s : Shared T) : Prop where
  searchable : s.Searchable
  /-- A live offset is in the mutable segment, in a list, or being moved. -/
  placed : ∀ o, s.Live o → o ∈ s.holder.hot.offsets ∨ s.Listed o ∨ ∃ t, o ∈ (s.task t).carried
  /-- A snapshot about to be published has every live offset that the mutable segment has not. -/
  snapshots : ∀ t snapshot, (s.task t).snapshot? = some snapshot → ∀ o, s.Live o →
    o ∈ s.holder.hot.offsets ∨ ∃ seg ∈ snapshot, o ∈ seg.offsets
  vectors : ∀ o, s.Live o → o ∈ s.vectors
  replaces : ∀ t, s.Replaces (s.task t)
  hot : ∀ o ∈ s.holder.hot.offsets, o ∈ s.inserted
  known : ∀ seg, s.Known seg → ∀ o ∈ seg.offsets, o ∈ s.inserted
  pending : ∀ t, ∀ o ∈ (s.task t).pending, o ∈ s.inserted
  /-- A handle names one segment. -/
  unique : ∀ seg seg', s.Known seg → s.Known seg' → seg.id = seg'.id → seg = seg'
  fresh : ∀ seg, s.Known seg → seg.id < s.holder.nextId

/-- A state to start from: every thread is idle, everything listed is published, and every live
offset is covered and has its vector. -/
structure Start (s : Shared T) : Prop where
  idle : ∀ t, s.task t = .idle
  published : s.holder.published = s.holder.lists.all
  covered : s.Searchable
  vectors : ∀ o, s.Live o → o ∈ s.vectors
  hot : ∀ o ∈ s.holder.hot.offsets, o ∈ s.inserted
  listed : ∀ seg ∈ s.holder.lists.all, ∀ o ∈ seg.offsets, o ∈ s.inserted
  unique : ∀ seg ∈ s.holder.lists.all, ∀ seg' ∈ s.holder.lists.all, seg.id = seg'.id → seg = seg'
  fresh : ∀ seg ∈ s.holder.lists.all, seg.id < s.holder.nextId

variable {k k' : Task} {lists : SegmentLists} {config : TierConfig}

section States

omit [DecidableEq T]

/-- The invariant holds at the start. -/
lemma Start.inv {s : Shared T} (h : s.Start) : s.Inv where
  searchable := h.covered
  placed := fun o ho => by
    rcases h.covered o ho with hhot | hseg
    · exact .inl hhot
    · rw [h.published] at hseg
      exact .inr (.inl hseg)
  snapshots := fun t snapshot hsnap => by simp [h.idle t] at hsnap
  vectors := h.vectors
  replaces := fun t o _ seg hseg => by simp [h.idle t] at hseg
  hot := h.hot
  known := fun seg hseg => by
    rcases hseg with hseg | ⟨t, ht⟩
    · exact h.listed seg hseg
    · simp [h.idle t] at ht
  pending := fun t o ho => by simp [h.idle t] at ho
  unique := fun seg seg' hseg hseg' => by
    rcases hseg with hseg | ⟨t, ht⟩
    · rcases hseg' with hseg' | ⟨t, ht⟩
      · exact h.unique seg hseg seg' hseg'
      · simp [h.idle t] at ht
    · simp [h.idle t] at ht
  fresh := fun seg hseg => by
    rcases hseg with hseg | ⟨t, ht⟩
    · exact h.fresh seg hseg
    · simp [h.idle t] at ht

/-- What is carried is pending. -/
lemma carried_subset_pending (k : Task) : k.carried ⊆ k.pending := by
  cases k <;> simp

/-- What a thread may go on with: its handles are known, what it is going to list was inserted and
has the live offsets of what it replaces, and its snapshot has those the mutable segment lacks. -/
structure Sound (s : Shared T) (k : Task) : Prop where
  known : ∀ seg ∈ k.segments, s.Known seg
  pending : ∀ o ∈ k.pending, o ∈ s.inserted
  replaces : s.Replaces k
  snapshot : ∀ snapshot, k.snapshot? = some snapshot → ∀ o, s.Live o →
    o ∈ s.holder.hot.offsets ∨ ∃ seg ∈ snapshot, o ∈ seg.offsets

variable {s : Shared T} {t : T} {plain : Segment} {targets : List Segment} {o : PointOffset}
  {outcome : Outcome}

/-- A task that is going to list nothing. -/
lemma sound_of_known (hknown : ∀ seg ∈ k.segments, s.Known seg) (hpending : k.pending = [])
    (hreplaced : k.replaced = []) (hsnapshot : k.snapshot? = none) : s.Sound k := by
  refine ⟨hknown, by rw [hpending]; simp, ?_, by rw [hsnapshot]; simp⟩
  intro o _ seg hseg
  rw [hreplaced] at hseg
  cases hseg

/-- `publishing` holds nothing. -/
lemma sound_publishing : s.Sound .publishing :=
  sound_of_known (by simp) rfl rfl rfl

/-- `idle` holds nothing. -/
lemma sound_idle : s.Sound .idle := sound_of_known (by simp) rfl rfl rfl

/-- A thread's handles are known. -/
lemma known_of_task {seg : Segment} (htask : s.task t = k) (hseg : seg ∈ k.segments) :
    s.Known seg :=
  .inr ⟨t, htask ▸ hseg⟩

/-- The segments a task replaces are in its hands. -/
lemma replaced_subset_segments (k : Task) : k.replaced ⊆ k.segments := by
  rcases k with _ | _ | _ | ⟨_, _ | _ | _⟩ | _ | _ | _ | _ | _ | _ | _ <;>
    simp

/-- Storing a vector keeps the invariant. -/
lemma Inv.put (h : s.Inv) (offset : PointOffset) :
    ({ s with vectors := insert offset s.vectors } : Shared T).Inv :=
  { h with vectors := fun o ho => Finset.mem_insert_of_mem (h.vectors o ho) }

/-- A deletion keeps it: fewer offsets are live. -/
lemma Inv.delete (h : s.Inv) (offset : PointOffset) :
    ({ s with deleted := insert offset s.deleted } : Shared T).Inv := by
  have hlive : ∀ o, ({ s with deleted := insert offset s.deleted } : Shared T).Live o → s.Live o :=
    fun o ho => ⟨ho.1, fun hd => ho.2 (Finset.mem_insert_of_mem hd)⟩
  exact ⟨fun o ho => h.searchable o (hlive o ho), fun o ho => h.placed o (hlive o ho),
    fun t' sn hsn o ho => h.snapshots t' sn hsn o (hlive o ho),
    fun o ho => h.vectors o (hlive o ho), fun t' o ho => h.replaces t' o (hlive o ho),
    h.hot, h.known, h.pending, h.unique, h.fresh⟩

/-- An inserted offset is in the mutable segment, and in no other. -/
lemma Inv.insertHot (h : s.Inv) {offset : PointOffset} {embedding : Embedding} {full : Bool}
    {h' : Holder} (hvector : offset ∈ s.vectors) (hnew : offset ∉ s.inserted)
    (hins : s.holder.insert config offset embedding = .ok (full, h')) :
    ({ s with holder := h', inserted := insert offset s.inserted } : Shared T).Inv := by
  obtain ⟨hot, rfl, hhot⟩ := insert_eq_ok hins
  have hlive : ∀ o, o ∈ insert offset s.inserted ∧ o ∉ s.deleted → o = offset ∨ s.Live o := by
    rintro o ⟨ho, hd⟩
    rcases Finset.mem_insert.mp ho with rfl | ho
    · exact .inl rfl
    · exact .inr ⟨ho, hd⟩
  have hself : offset ∈ hot.offsets := (hhot offset).mpr (.inl rfl)
  constructor
  · intro o ho
    rcases hlive o ho with rfl | ho
    · exact .inl hself
    · exact (h.searchable o ho).imp_left fun ho => (hhot o).mpr (.inr ho)
  · intro o ho
    rcases hlive o ho with rfl | ho
    · exact .inl hself
    · exact (h.placed o ho).imp_left fun ho => (hhot o).mpr (.inr ho)
  · intro t' sn hsn o ho
    rcases hlive o ho with rfl | ho
    · exact .inl hself
    · exact (h.snapshots t' sn hsn o ho).imp_left fun ho => (hhot o).mpr (.inr ho)
  · intro o ho
    rcases hlive o ho with rfl | ho
    · exact hvector
    · exact h.vectors o ho
  · intro t' o ho seg hseg hmem
    rcases hlive o ho with rfl | ho
    · exact absurd (h.known seg (.inr ⟨t', replaced_subset_segments _ hseg⟩) o hmem) hnew
    · exact h.replaces t' o ho seg hseg hmem
  · intro o ho
    rcases (hhot o).mp ho with rfl | ho
    · exact Finset.mem_insert_self _ _
    · exact Finset.mem_insert_of_mem (h.hot o ho)
  · exact fun seg hseg o ho => Finset.mem_insert_of_mem (h.known seg hseg o ho)
  · exact fun t' o ho => Finset.mem_insert_of_mem (h.pending t' o ho)
  · exact h.unique
  · exact h.fresh

/-- A built segment has only offsets of the plain one. -/
lemma mem_buildSegment_offsets
    (ho : o ∈ (s.buildSegment plain outcome).offsets) : o ∈ plain.offsets := by
  simp only [buildSegment] at ho
  split at ho
  · exact ho
  · cases outcome with
    | sealed | warm => exact (mem_filter.mp ho).1
    | failed => exact ho

/-- It has every offset of the plain one that has a vector. -/
lemma mem_buildSegment_of_vector (ho : o ∈ plain.offsets) (hvector : o ∈ s.vectors) :
    o ∈ (s.buildSegment plain outcome).offsets := by
  have hmem : o ∈ s.withVectors plain.offsets :=
    mem_filter.mpr ⟨ho, by simpa using hvector⟩
  simp only [buildSegment]
  split
  · exact ho
  · cases outcome with
    | sealed | warm => exact hmem
    | failed => exact ho

/-- The handles of a finished build are the plain segment's. -/
lemma eq_of_mem_segments_ready {plain seg : Segment}
    (hseg : seg ∈ (Task.ready plain (s.buildSegment plain outcome)).segments) : seg = plain := by
  simp only [buildSegment] at hseg
  split at hseg
  · simpa using hseg
  · cases outcome <;> simpa using hseg

/-- Known segments may be replaced by their offsets that have a vector. -/
lemma Inv.sound_withVectors (h : s.Inv) (hknown : ∀ seg ∈ targets, s.Known seg)
    (hsegments : k.segments = targets) (hreplaced : k.replaced = targets)
    (hpending : k.pending = s.withVectors (targets.flatMap Segment.offsets).dedup)
    (hsnapshot : k.snapshot? = none) : s.Sound k := by
  refine ⟨hsegments ▸ hknown, ?_, ?_, by rw [hsnapshot]; simp⟩
  · intro o ho
    rw [hpending] at ho
    obtain ⟨seg, hseg, hmem⟩ := mem_flatMap.mp (mem_dedup.mp (mem_filter.mp ho).1)
    exact h.known seg (hknown seg hseg) o hmem
  · intro o ho seg hseg hmem
    rw [hreplaced] at hseg
    rw [hpending]
    refine mem_filter.mpr ⟨?_, by simpa using h.vectors o ho⟩
    exact mem_dedup.mpr (mem_flatMap.mpr ⟨seg, hseg, hmem⟩)

/-- What was pending is carried from now on. -/
lemma Inv.sound_installing (h : s.Inv) {built : Built} (htask : s.task t = k)
    (hsegments : (Task.installing built).segments ⊆ k.segments)
    (hpending : k.pending = built.offsets) : s.Sound (.installing built) :=
  ⟨fun _ hseg => known_of_task htask (hsegments hseg), fun o ho =>
    h.pending t o (by rw [htask, hpending]; exact ho), by simp [Replaces], by simp⟩

end States

section Moves

variable {s : Shared T}

/-- A step over another holder keeps the invariant, if it loses no live offset that was in the
mutable segment, listed or carried, and lists besides known segments at most one under a new handle.
-/
lemma Inv.go (h : s.Inv) (t : T) {holder : Holder} (new : List PointOffset)
    (hnext : s.holder.nextId ≤ holder.nextId) (hnew : ∀ o ∈ new, o ∈ s.inserted)
    (hcovers : ∀ o, s.Live o → holder.Covers o) (hhot : ∀ o ∈ holder.hot.offsets, o ∈ s.inserted)
    (hsnapshots : ∀ t snapshot, (s.task t).snapshot? = some snapshot → ∀ o, s.Live o →
      o ∈ holder.hot.offsets ∨ ∃ seg ∈ snapshot, o ∈ seg.offsets)
    (hknown : ∀ seg ∈ holder.lists.all,
      s.Known seg ∨ seg = ⟨s.holder.nextId, new⟩ ∧ s.holder.nextId < holder.nextId)
    (hplaced : ∀ o, s.Live o → o ∈ s.holder.hot.offsets ∨ s.Listed o ∨ o ∈ (s.task t).carried →
      o ∈ holder.hot.offsets ∨ (∃ seg ∈ holder.lists.all, o ∈ seg.offsets) ∨ o ∈ k.carried)
    (hk : s.Sound k)
    (hsnapshot : ∀ snapshot, k.snapshot? = some snapshot → holder.hot = s.holder.hot) :
    (s.go t holder k).Inv := by
  have hknown' : ∀ seg, (s.go t holder k).Known seg →
      s.Known seg ∨ seg = ⟨s.holder.nextId, new⟩ ∧ s.holder.nextId < holder.nextId := by
    rintro seg (hseg | ⟨t', hseg⟩)
    · exact hknown seg hseg
    · by_cases ht : t' = t
      · subst ht
        exact .inl (hk.known seg (by simpa [Shared.go] using hseg))
      · exact .inl (.inr ⟨t', by simpa [Shared.go, ht] using hseg⟩)
  have htask : ∀ {p : Task → Prop}, (∀ t, p (s.task t)) → p k →
      ∀ t', p ((s.go t holder k).task t') := by
    intro p hall hk t'
    by_cases ht : t' = t
    · subst ht
      simpa [Shared.go] using hk
    · simpa [Shared.go, ht] using hall t'
  have hcarries : ∀ o, o ∈ holder.hot.offsets ∨ (∃ seg ∈ holder.lists.all, o ∈ seg.offsets) ∨
      o ∈ k.carried → o ∈ holder.hot.offsets ∨ (∃ seg ∈ holder.lists.all, o ∈ seg.offsets) ∨
        ∃ t', o ∈ ((s.go t holder k).task t').carried :=
    fun o => Or.imp_right (Or.imp_right fun ho => ⟨t, by simpa [Shared.go] using ho⟩)
  constructor
  · exact hcovers
  · intro o ho
    rcases h.placed o ho with hhot | hlisted | ⟨t', ht'⟩
    · exact hcarries o (hplaced o ho (.inl hhot))
    · exact hcarries o (hplaced o ho (.inr (.inl hlisted)))
    · by_cases ht : t' = t
      · subst ht
        exact hcarries o (hplaced o ho (.inr (.inr ht')))
      · exact .inr (.inr ⟨t', by simpa [Shared.go, ht] using ht'⟩)
  · refine htask (p := fun k => ∀ snapshot, k.snapshot? = some snapshot → ∀ o, s.Live o →
      o ∈ holder.hot.offsets ∨ ∃ seg ∈ snapshot, o ∈ seg.offsets) hsnapshots ?_
    intro snapshot hsnap
    rw [hsnapshot snapshot hsnap]
    exact hk.snapshot snapshot hsnap
  · exact h.vectors
  · exact htask h.replaces hk.replaces
  · exact hhot
  · intro seg hseg
    rcases hknown' seg hseg with hseg | ⟨rfl, _⟩
    · exact h.known seg hseg
    · exact hnew
  · exact htask (p := fun k => ∀ o ∈ k.pending, o ∈ s.inserted) h.pending hk.pending
  · intro seg seg' hseg hseg' hid
    rcases hknown' seg hseg with hseg | ⟨rfl, _⟩ <;>
      rcases hknown' seg' hseg' with hseg' | ⟨rfl, _⟩
    · exact h.unique seg seg' hseg hseg' hid
    · exact absurd hid (h.fresh seg hseg).ne
    · exact absurd hid.symm (h.fresh seg' hseg').ne
    · rfl
  · intro seg hseg
    rcases hknown' seg hseg with hseg | ⟨rfl, hlt⟩
    · exact lt_of_lt_of_le (h.fresh seg hseg) hnext
    · exact hlt

/-- A step that rearranges the lists and keeps the mutable segment. -/
lemma Inv.move (h : s.Inv) (t : T) (new : List PointOffset)
    {nextId : ℕ} (hnext : s.holder.nextId ≤ nextId) (hnew : ∀ o ∈ new, o ∈ s.inserted)
    (hknown : ∀ seg ∈ lists.all,
      s.Known seg ∨ seg = ⟨s.holder.nextId, new⟩ ∧ s.holder.nextId < nextId)
    (hplaced : ∀ o, s.Live o → s.Listed o ∨ o ∈ (s.task t).carried →
      (∃ seg ∈ lists.all, o ∈ seg.offsets) ∨ o ∈ k.carried) (hk : s.Sound k) :
    (s.go t { s.holder with lists := lists, nextId := nextId } k).Inv :=
  h.go t new hnext hnew h.searchable h.hot h.snapshots hknown
    (fun o ho => Or.imp_right (hplaced o ho)) hk fun _ _ => rfl

/-- A thread only goes on with another task. -/
lemma Inv.think (h : s.Inv) (t : T) (hcarried : (s.task t).carried = []) (hk : s.Sound k) :
    (s.go t s.holder k).Inv := by
  refine h.move t [] le_rfl (by simp) (fun seg hseg => .inl (.inl hseg)) ?_ hk
  rintro o _ (ho | ho)
  · exact .inl ho
  · exact absurd ho (hcarried ▸ not_mem_nil)

/-- An idle thread chooses listed segments to work on. -/
lemma Inv.choose (h : s.Inv) {t : T} (hidle : s.task t = .idle)
    (hlisted : ∀ seg ∈ k.segments, seg ∈ s.holder.lists.all) (hpending : k.pending = [])
    (hreplaced : k.replaced = []) (hsnapshot : k.snapshot? = none) :
    (s.go t s.holder k).Inv :=
  h.think t (by simp [hidle])
    (sound_of_known (fun seg hseg => .inl (hlisted seg hseg)) hpending hreplaced hsnapshot)

end Moves

/-! ## Steps -/

section Steps

variable {config : TierConfig} {s s' : Shared T} {t : T}

/-- A swap keeps the invariant if other segments of the snapshots have what it takes away. -/
lemma Inv.swapHot (h : s.Inv) (hidle : s.task t = .idle) {old : HotSegment} {h' : Holder}
    (heq : s.holder.swapHot config = some (old, h')) (hcond : s.Undisturbed config .swapHot) :
    (s.go t h' (.swapped old)).Inv := by
  rw [Holder.swapHot] at heq
  split at heq
  · cases heq
  next hfull =>
  cases heq
  have hothers := hcond (not_lt.mp hfull)
  refine h.go t [] le_rfl (by simp) ?_ (by simp [HotSegment.new]) ?_
    (fun seg hseg => .inl (.inl hseg)) ?_ ?_ (by simp)
  · intro o ho
    rcases h.searchable o ho with hhot | hpub
    · exact .inr (hothers o hhot ho).1
    · exact .inr hpub
  · intro t' sn hsn o ho
    rcases h.snapshots t' sn hsn o ho with hhot | hmem
    · exact .inr ((hothers o hhot ho).2 t' sn hsn)
    · exact .inr hmem
  · rintro o _ (hhot | hlisted | hcarried)
    · exact .inr (.inr hhot)
    · exact .inr (.inl hlisted)
    · simp [hidle] at hcarried
  · exact ⟨by simp, h.hot, by simp [Replaces], by simp⟩

/-- A published snapshot has every live offset that the mutable segment has not. -/
lemma Inv.store (h : s.Inv) {snapshot : List Segment} (hbuilt : s.task t = .built snapshot) :
    (s.go t (s.holder.store snapshot) .idle).Inv := by
  refine h.go t [] le_rfl (by simp)
    (fun o ho => h.snapshots t snapshot (by simp [hbuilt]) o ho) h.hot h.snapshots
    (fun seg hseg => .inl (.inl hseg)) ?_ sound_idle fun _ _ => rfl
  rintro o _ (hhot | hlisted | hcarried)
  · exact .inl hhot
  · exact .inr (.inl hlisted)
  · simp [hbuilt] at hcarried

/-- What a thread carries is listed under a new handle. -/
lemma Inv.list (h : s.Inv) {offsets : List PointOffset} (hcarried : (s.task t).carried = offsets)
    (hall : ∀ seg, seg ∈ lists.all ↔ seg = ⟨s.holder.nextId, offsets⟩ ∨ seg ∈ s.holder.lists.all) :
    (s.go t { s.holder with lists := lists, nextId := s.holder.nextId + 1 } .publishing).Inv := by
  refine h.move t offsets (Nat.le_succ _) ?_ ?_ ?_ sound_publishing
  · intro o ho
    exact h.pending t o (carried_subset_pending _ (hcarried ▸ ho))
  · intro seg hseg
    rcases (hall seg).mp hseg with rfl | hseg
    · exact .inr ⟨rfl, Nat.lt_succ_self _⟩
    · exact .inl (.inl hseg)
  · rintro o _ (⟨seg, hseg, ho⟩ | ho)
    · exact .inl ⟨seg, (hall seg).mpr (.inr hseg), ho⟩
    · exact .inl ⟨⟨s.holder.nextId, offsets⟩, (hall _).mpr (.inl rfl), hcarried ▸ ho⟩

variable {plain : Segment}

/-- The optimizer takes a plain segment, which stays listed. -/
lemma Inv.popSealingPlain (h : s.Inv) (hidle : s.task t = .idle) {h' : Holder}
    (heq : s.holder.popSealingPlain = some (plain, h')) : (s.go t h' (.building plain)).Inv := by
  obtain ⟨hplain, hall, heq⟩ := popSealingPlain_eq_some heq
  rw [heq]
  refine h.move t [] le_rfl (by simp) (fun seg hseg => .inl (.inl ((hall seg).mp hseg))) ?_ ?_
  · rintro o _ (⟨seg, hseg, ho⟩ | ho)
    · exact .inl ⟨seg, (hall seg).mpr hseg, ho⟩
    · simp [hidle] at ho
  · refine sound_of_known (fun seg hseg => ?_) rfl rfl rfl
    obtain rfl : seg = plain := by simpa using hseg
    exact .inl hplain

/-- Segments are removed whose live offsets the thread carries from now on. -/
lemma Inv.remove (h : s.Inv) (targets : List Segment)
    (htargets : ∀ seg ∈ targets, s.Known seg) (hcarried : (s.task t).carried = [])
    (hleft : ∀ seg ∈ s.holder.lists.all, (∀ target ∈ targets, target.id ≠ seg.id) →
      seg ∈ lists.all) (hsub : ∀ seg ∈ lists.all, seg ∈ s.holder.lists.all)
    (hcarries : ∀ o, s.Live o → ∀ seg ∈ targets, o ∈ seg.offsets → o ∈ k.carried) (hk : s.Sound k) :
    (s.go t { s.holder with lists := lists } k).Inv := by
  refine h.move t [] le_rfl (by simp) (fun seg hseg => .inl (.inl (hsub seg hseg))) ?_ hk
  rintro o ho (⟨seg, hseg, hmem⟩ | hmem)
  · by_cases htarget : ∃ target ∈ targets, target.id = seg.id
    · obtain ⟨target, htarget, hid⟩ := htarget
      obtain rfl := h.unique target seg (htargets target htarget) (.inl hseg) hid
      exact .inr (hcarries o ho target htarget hmem)
    · push Not at htarget
      exact .inl ⟨seg, hleft seg hseg htarget, hmem⟩
  · exact absurd hmem (hcarried ▸ not_mem_nil)

/-- A plain segment is removed whose live offsets the thread carries. -/
lemma Inv.removeSealingPlain (h : s.Inv) (hplain : s.Known plain)
    (hcarried : (s.task t).carried = [])
    (hcarries : ∀ o, s.Live o → o ∈ plain.offsets → o ∈ k.carried) (hk : s.Sound k) :
    (s.go t (s.holder.removeSealingPlain plain) k).Inv := by
  refine h.remove [plain] ?_ hcarried ?_ ?_ ?_ hk
  · simpa using hplain
  · intro seg hseg hne
    exact mem_all_removeSealingPlain_of_ne hseg (hne plain (by simp)).symm
  · exact fun seg hseg => mem_all_of_mem_removeSealingPlain hseg
  · simpa using hcarries

variable {targets : List Segment}

/-- Sealed segments are removed whose live offsets the thread carries. -/
lemma Inv.removeSealedHot (h : s.Inv)
    (htargets : ∀ seg ∈ targets, s.Known seg) (hcarried : (s.task t).carried = [])
    (hcarries : ∀ o, s.Live o → ∀ seg ∈ targets, o ∈ seg.offsets → o ∈ k.carried) (hk : s.Sound k) :
    (s.go t (s.holder.removeSealedHotSegments targets) k).Inv :=
  h.remove targets htargets hcarried (fun _ hseg hne => mem_all_removeSealedHot_of_ne hseg hne)
    (fun _ hseg => mem_all_of_mem_removeSealedHot hseg) hcarries hk

/-- A plain segment goes back into the queue. -/
lemma Inv.pushBack (h : s.Inv) (htask : s.task t = .installing (.failed plain)) :
    (s.go t (s.holder.pushBack plain) .publishing).Inv := by
  have hplain : s.Known plain := known_of_task htask (by simp)
  refine h.move t [] le_rfl (by simp) ?_ ?_ sound_publishing
  · intro seg hseg
    rcases mem_all_of_mem_pushBack hseg with rfl | hseg
    · exact .inl hplain
    · exact .inl (.inl hseg)
  · rintro o _ (⟨seg, hseg, ho⟩ | ho)
    · by_cases hid : seg.id = plain.id
      · obtain rfl := h.unique seg plain (.inl hseg) hplain hid
        exact .inl ⟨seg, self_mem_all_pushBack seg, ho⟩
      · exact .inl ⟨seg, mem_all_pushBack_of_ne hseg hid, ho⟩
    · exact .inl ⟨plain, self_mem_all_pushBack plain,
        by simpa [htask] using ho⟩

/-- The cold segment takes the place of the warm ones in one section. -/
lemma Inv.installCold (h : s.Inv) {cold : Option (List PointOffset)}
    (htask : s.task t = .compacted targets cold) :
    (s.go t (s.holder.installCold cold targets) .publishing).Inv := by
  have hnext : s.holder.installCold cold targets = { s.holder with
        lists := (s.holder.installCold cold targets).lists
        nextId := s.holder.nextId + cold.elim 0 fun _ => 1 } := by
    cases cold <;> rfl
  rw [hnext]
  refine h.move t (cold.getD []) (Nat.le_add_right _ _) ?_ ?_ ?_ sound_publishing
  · simpa [htask] using h.pending t
  · intro seg hseg
    rcases mem_all_of_mem_installCold hseg with hseg | ⟨offsets, rfl, rfl⟩
    · exact .inl (.inl hseg)
    · exact .inr ⟨rfl, Nat.lt_succ_self _⟩
  · rintro o ho (⟨seg, hseg, hmem⟩ | hmem)
    · by_cases htarget : ∃ target ∈ targets, target.id = seg.id
      · obtain ⟨target, htarget, hid⟩ := htarget
        have hknown : s.Known target := known_of_task htask htarget
        obtain rfl := h.unique target seg hknown (.inl hseg) hid
        have hcold : o ∈ cold.getD [] := by
          simpa [htask] using
            h.replaces t o ho target (by simpa [htask] using htarget) hmem
        cases cold with
        | none => simp at hcold
        | some offsets => exact .inl ⟨_, cold_mem_all_installCold, hcold⟩
      · push Not at htarget
        exact .inl ⟨seg, mem_all_installCold_of_ne hseg htarget, hmem⟩
    · simp [htask] at hmem

variable {o : PointOffset} {outcome : Outcome}

section

variable (h : s.Inv)
include h

/-- A build makes ready what has all live offsets of the plain segment. -/
lemma Inv.build (htask : s.task t = .building plain) (outcome : Outcome) :
    (s.go t s.holder (.ready plain (s.buildSegment plain outcome))).Inv := by
  have hplain : s.Known plain := known_of_task htask (by simp)
  refine h.think t (by simp [htask]) ⟨?_, ?_, ?_, by simp⟩
  · intro seg hseg
    exact eq_of_mem_segments_ready hseg ▸ hplain
  · intro o ho
    exact h.known plain hplain o (mem_buildSegment_offsets ho)
  · intro o ho seg hseg hmem
    obtain rfl : seg = plain := by simpa using hseg
    exact mem_buildSegment_of_vector hmem (h.vectors o ho)

/-- A snapshot built while nothing is in flight has every live offset that the mutable segment
has not. -/
lemma Inv.buildSnapshot (htask : s.task t = .publishing)
    (hflight : ∀ t, (s.task t).InFlight = false) :
    (s.go t s.holder (.built s.holder.buildSnapshot)).Inv := by
  refine h.think t (by simp [htask]) ⟨by simp, by simp, by simp [Replaces], ?_⟩
  rintro snapshot hsnapshot o ho
  obtain rfl : s.holder.buildSnapshot = snapshot := by simpa using hsnapshot
  rcases h.placed o ho with hhot | hlisted | ⟨t', ht'⟩
  · exact .inl hhot
  · exact .inr hlisted
  · have hnot := hflight t'
    cases hk : s.task t' <;> simp [hk] at ht' hnot

/-- A merge removes segments that have no offset. -/
lemma Inv.removeEmpty (htask : s.task t = .merging targets)
    (hnil : (targets.flatMap Segment.offsets).dedup = []) :
    (s.go t (s.holder.removeSealedHotSegments targets) .publishing).Inv := by
  refine h.removeSealedHot (fun seg hseg => known_of_task htask hseg) (by simp [htask]) ?_
    sound_publishing
  intro o _ seg hseg hmem
  have hall : o ∈ (targets.flatMap Segment.offsets).dedup :=
    mem_dedup.mpr (mem_flatMap.mpr ⟨seg, hseg, hmem⟩)
  simp [hnil] at hall

/-- A merge or a compaction has built the segment that replaces its own. -/
lemma Inv.replace (htask : s.task t = k') (hsegments' : k'.segments = targets)
    (hcarried : k'.carried = []) (hsegments : k.segments = targets)
    (hreplaced : k.replaced = targets)
    (hpending : k.pending = s.withVectors (targets.flatMap Segment.offsets).dedup)
    (hsnapshot : k.snapshot? = none) : (s.go t s.holder k).Inv :=
  h.think t (htask ▸ hcarried) (h.sound_withVectors
    (fun _ hseg => known_of_task htask (hsegments' ▸ hseg)) hsegments hreplaced hpending hsnapshot)

/-- The plain segment leaves the queue once its replacement is built. -/
lemma Inv.removeReady {built : Built} (htask : s.task t = .ready plain built) :
    (s.go t (s.holder.removeSealingPlain plain) (.installing built)).Inv := by
  refine h.removeSealingPlain (known_of_task htask (by cases built <;> simp)) (by simp [htask]) ?_
    (h.sound_installing htask (by cases built <;> simp) rfl)
  intro o ho hmem
  simpa [htask] using h.replaces t o ho plain (by simp [htask]) hmem

/-- The merged segments leave their list once their replacement is built. -/
lemma Inv.removeMerged {offsets : List PointOffset}
    (htask : s.task t = .merged targets offsets) :
    (s.go t (s.holder.removeSealedHotSegments targets) (.installing (.sealed offsets))).Inv := by
  refine h.removeSealedHot (fun seg hseg => known_of_task htask hseg) (by simp [htask]) ?_
    (h.sound_installing htask (by simp) rfl)
  intro o ho seg hseg hmem
  simpa [htask] using h.replaces t o ho seg (by simpa [htask] using hseg) hmem

/-- Every step that satisfies the condition keeps the invariant.

**Proof sketch.** One lemma for each event; a thread that finds nothing to do changes nothing. -/
lemma Inv.step {e : Event} (hcond : s.Undisturbed config e)
    (hstep : s.step config t e = some s') : s'.Inv := by
  unfold Shared.step at hstep
  split at hstep
  case h_1 => -- put
    cases hstep
    exact h.put _
  case h_2 => -- insert
    split at hstep
    · next hnew =>
      split at hstep
      · next hins =>
        cases hstep
        exact h.insertHot hnew.1 hnew.2 hins
      · exact Option.some.inj hstep ▸ h
    · cases hstep
  case h_3 => -- delete
    cases hstep
    exact h.delete _
  case h_4 htask => -- swapHot
    split at hstep
    · exact Option.some.inj hstep ▸ h
    · next hswap =>
      cases hstep
      exact h.swapHot htask hswap hcond
  case h_5 htask => -- queue
    cases hstep
    exact h.list (by simp [htask]) fun _ => mem_all_pushSealing
  case h_6 htask => -- popSealingPlain
    split at hstep
    · exact Option.some.inj hstep ▸ h
    · next hpop =>
      cases hstep
      exact h.popSealingPlain htask hpop
  case h_7 plain outcome htask => -- build
    split at hstep
    · next hnil =>
      cases hstep
      exact h.removeSealingPlain (known_of_task htask (by simp)) (by simp [htask]) (by simp [hnil])
        sound_publishing
    · cases hstep
      exact h.build htask outcome
  case h_8 htask => -- removeSealingPlain
    cases hstep
    exact h.removeReady htask
  case h_9 htask => -- install a sealed segment
    cases hstep
    exact h.list (by simp [htask]) fun _ => mem_all_pushSealedHot
  case h_10 htask => -- install a warm segment
    cases hstep
    exact h.list (by simp [htask]) fun _ => mem_all_pushWarm
  case h_11 htask => -- put a plain segment back
    cases hstep
    exact h.pushBack htask
  case h_12 htask => -- chooseMerge
    split at hstep
    · exact Option.some.inj hstep ▸ h
    · next htargets =>
      cases hstep
      exact h.choose htask (fun _ => mem_all_of_mem_mergeCandidates htargets) rfl rfl rfl
  case h_13 htask => -- buildMerge
    dsimp only at hstep
    split at hstep
    · next hnil =>
      cases hstep
      exact h.removeEmpty htask hnil
    · split at hstep
      · cases hstep
        exact h.think t (by simp [htask]) sound_idle
      · cases hstep
        exact h.replace htask rfl rfl rfl rfl rfl rfl
  case h_14 htask => -- removeSealedHot
    cases hstep
    exact h.removeMerged htask
  case h_15 htask => -- chooseWarm
    split at hstep
    · exact Option.some.inj hstep ▸ h
    · next htargets =>
      cases hstep
      exact h.choose htask (fun _ => mem_all_of_mem_warmTargets htargets) rfl rfl rfl
  case h_16 htask => -- buildCold
    dsimp only at hstep
    split at hstep
    · next hnil =>
      cases hstep
      exact h.replace htask rfl rfl rfl rfl hnil.symm rfl
    · split at hstep
      · cases hstep
        exact h.replace htask rfl rfl rfl rfl rfl rfl
      · cases hstep
        exact h.think t (by simp [htask]) sound_idle
  case h_17 htask => -- installCold
    cases hstep
    exact h.installCold htask
  case h_18 htask => -- startPublish
    cases hstep
    exact h.think t (by simp [htask]) sound_publishing
  case h_19 htask => -- buildSnapshot
    cases hstep
    exact h.buildSnapshot htask hcond
  case h_20 htask => -- store
    cases hstep
    exact h.store htask
  case h_21 => cases hstep

end

end Steps

/-- Every live offset is searchable in every state of a run whose steps all satisfy the condition.
**Proof sketch.** `Inv` holds at the start (`Start.inv`) and is kept by every step (`Inv.step`): a
live offset is in the mutable segment, in a list or carried by a thread, and a snapshot about to be
published has all that the mutable segment lacks. -/
theorem searchable_of_undisturbed {config : TierConfig} {s₀ s : Shared T} (hstart : s₀.Start)
    (hrun : Run config s₀ s) : s.Searchable := by
  suffices h : s.Inv from h.searchable
  induction hrun with
  | refl => exact hstart.inv
  | step t e _ hcond hstep ih => exact ih.step hcond hstep

omit [DecidableEq T] in
/-- An opened store is a state to start from: its records are live, and what else its segments hold
counts as inserted and deleted. -/
theorem start_of_openSegments
    {sealedLoaded warmLoaded coldLoaded : List SegmentDir} {records : List (PointOffset × Record)}
    (hdim : ∀ p ∈ records, p.2.embedding.length = config.dimension) {opened : OpenedSegments}
    (hopen : openSegments config sealedLoaded warmLoaded coldLoaded records = .ok opened)
    {s : Shared T} (hholder : s.holder = opened.holder) (hidle : ∀ t, s.task t = .idle)
    (hlive : ∀ o, s.Live o → o ∈ s.vectors ∧ ∃ p ∈ records, p.1 = o)
    (hhot : ∀ o ∈ s.holder.hot.offsets, o ∈ s.inserted)
    (hlisted : ∀ seg ∈ s.holder.lists.all, ∀ o ∈ seg.offsets, o ∈ s.inserted) : s.Start := by
  obtain ⟨holder, hopen', hpub, hhandles, hcover⟩ :=
    exists_openSegments config sealedLoaded warmLoaded coldLoaded hdim
  cases hopen.symm.trans hopen'
  refine ⟨hidle, hholder ▸ hpub, ?_, fun o ho => (hlive o ho).1, hhot, hlisted,
    hholder ▸ hhandles.unique, hholder ▸ hhandles.fresh⟩
  intro o ho
  obtain ⟨p, hp, rfl⟩ := (hlive o ho).2
  exact hholder ▸ hcover p hp

/-- A store with two small sealed segments, and two threads. -/
def sampleShared : Shared Bool where
  holder :=
    { hot := HotSegment.new 1
      lists := { sealedHot := [⟨0, [0]⟩, ⟨1, [1]⟩] }
      nextId := 2
      published := [⟨0, [0]⟩, ⟨1, [1]⟩] }
  vectors := {0, 1}
  inserted := {0, 1}
  deleted := ∅
  task := fun _ => .idle

/-- Its configuration. -/
def sampleTiers : TierConfig := ⟨1, 4, 10, 2, 10⟩

/-- The segments are merged while the other thread inserts a record. -/
def sampleMerge : List (Bool × Event) :=
  [(false, .chooseMerge), (true, .put 2), (false, .buildMerge true), (false, .removeSealedHot),
    (true, .insert 2 [F32.one]), (false, .install), (false, .buildSnapshot), (false, .store)]

/-- It is a state to start from. -/
lemma start_sampleShared : sampleShared.Start := by
  constructor <;>
    simp [sampleShared, SegmentLists.all, Searchable, Live, Covers, HotSegment.new]

/-- All steps of the merge satisfy the condition. -/
lemma run_sampleMerge :
    ∃ s, sampleShared.steps sampleTiers sampleMerge = some s ∧ Run sampleTiers sampleShared s := by
  refine ⟨_, rfl, .step false .store (.step false .buildSnapshot (.step false .install
    (.step true (.insert 2 [F32.one]) (.step false .removeSealedHot (.step false (.buildMerge true)
      (.step true (.put 2) (.step false .chooseMerge .refl trivial rfl) trivial rfl)
        trivial rfl) trivial rfl) trivial rfl) trivial rfl) ?_ rfl) trivial rfl⟩
  rintro (_ | _) <;> rfl

/-- Everything stays searchable up to the publication of the merged segment. -/
theorem searchable_of_undisturbed_merge :
    sampleShared.Start ∧ ∃ s, sampleShared.steps sampleTiers sampleMerge = some s ∧
      Run sampleTiers sampleShared s ∧ s.Searchable := by
  obtain ⟨s, hsteps, hrun⟩ := run_sampleMerge
  exact ⟨start_sampleShared, s, hsteps, hrun, searchable_of_undisturbed start_sampleShared hrun⟩

/-- The condition on a swap is needed: swapping a full mutable segment keeps the live offsets
searchable just if other published segments have those it takes away. -/
theorem searchable_swap_iff {s s' : Shared T} {t : T}
    (hsearchable : s.Searchable) (hidle : s.task t = .idle)
    (hfull : config.hotCapacity ≤ s.holder.hot.offsets.length)
    (hstep : s.step config t .swapHot = some s') :
    s'.Searchable ↔ ∀ o ∈ s.holder.hot.offsets, s.Live o →
      ∃ seg ∈ s.holder.published, o ∈ seg.offsets := by
  have hs' : s' = s.go t { s.holder with hot := HotSegment.new config.dimension }
      (.swapped s.holder.hot) := by
    simpa [step, hidle, swapHot, not_lt.mpr hfull, eq_comm] using hstep
  subst hs'
  constructor
  · intro h o _ ho
    rcases h o ho with hhot | hseg
    · simp [go, HotSegment.new] at hhot
    · exact hseg
  · intro h o ho
    rcases hsearchable o ho with hhot | hseg
    · exact .inr (h o hhot ho)
    · exact .inr hseg

/-- Sealing hides a record: after the swap it is in no segment of the published snapshot. -/
theorem searchable_fails_after_swap :
    let start : Shared Unit := ⟨new ⟨1, 1, 10, 2, 10⟩, ∅, ∅, ∅, fun _ => .idle⟩
    ∃ s, start.steps ⟨1, 1, 10, 2, 10⟩
        [((), .put 0), ((), .insert 0 [F32.one]), ((), .swapHot)] = some s ∧
      s.Live 0 ∧ ¬ s.holder.Covers 0 := by
  refine ⟨_, rfl, ⟨by decide, by decide⟩, by decide⟩

end Shared

end TurboMemory
