import TurboMemory.Engine.CrashRecovery

/-!
# Updates and lookups by other threads

An update looks its id up without a lock, prepares the record, and commits under the write lock:
the old version is dropped from the indexes before the update worker enters the new one.
Lookups hold the id index for reading and take no other lock. No call fails: a step whose system
calls fail, or whose input is not valid, is not taken.

## Main results

* `Stage.runAll_stages` — the stages of a commit, one after the other, are its plan.
* `Sys.atomic_of_undisturbed` — in a run whose steps are all undisturbed, every update of an id
  that was live returns true and every lookup finds a version of its record that was stored; the
  first step that is not undisturbed makes an id appear absent.
* `Sys.start_of_rest` — a store at rest is a state to start from.
* `Sys.absent_during_update` — otherwise a lookup finds nothing, and an update returns false.
-/

set_option autoImplicit false

namespace TurboMemory

open CriticalSections Option Function Engine MetadataStore

/-! ## The commit of an update -/

/-- An update that is being committed. -/
structure Update where
  id : String
  oldOffset : PointOffset
  offset : PointOffset
  record : Record

/-- The steps an update is committed in. -/
def Update.plan (u : Update) : List Action :=
  writePlan [(u.offset, u.record)] [.replace u.oldOffset u.offset u.record]
    [.removeFromIndexes u.id u.oldOffset]

/-- Look the id up again under the lock, and take an offset and a sequence number. -/
def Engine.beginUpdate (E : Env) (vocab : ConceptVocabulary) (e : Engine) (now : ℕ)
    (input : WriteInput) : Except StorageError (Option (Update × Engine)) :=
  (prepare E e.config vocab input).map fun prepared =>
    e.idIndex[input.id]?.map fun oldOffset =>
      let (offset, metadata) := e.metadata.allocateOffset
      let (seq, metadata) := metadata.allocateSeq
      (⟨input.id, oldOffset, offset, prepared.intoRecord now seq⟩, { e with metadata := metadata })

variable {vocab : ConceptVocabulary} {input : WriteInput} {e : Engine} {now : ℕ} {E : Env}

/-- An update that got past its first look at the id index is begun this way. -/
lemma Engine.update_eq_beginUpdate (hmem : input.id ∈ e.idIndex) :
    e.update E vocab now input = match e.beginUpdate E vocab now input with
      | .error err => .done (.error err)
      | .ok none => .done (.ok (.bool false))
      | .ok (some (u, e)) => .run e u.plan (.bool true) := by
  rw [update, if_neg (not_not.mpr hmem), beginUpdate]
  cases hprepare : prepare E e.config vocab input with
  | error err => rfl
  | ok prepared => cases hold : e.idIndex[input.id]? <;> rfl

/-- The parts of a commit between which other threads can look. -/
inductive Stage
  | put
  | syncVectors
  | log
  /-- Payload, scope and text index. -/
  | removeSecondary
  | removeMeta
  | removeId
  | removeGraph
  | putMeta
  /-- Id, payload, scope and text index, in one section. -/
  | index
  /-- Graph and segments. -/
  | applyRest
deriving DecidableEq

variable {u : Update} {stage : Stage} {io : Io}

namespace Stage

/-- All stages, in order. -/
def all : List Stage :=
  [.put, .syncVectors, .log, .removeSecondary, .removeMeta, .removeId, .removeGraph, .putMeta,
    .index, .applyRest]

/-- The stage after this one. -/
def next : Stage → Option Stage
  | .put => some .syncVectors
  | .syncVectors => some .log
  | .log => some .removeSecondary
  | .removeSecondary => some .removeMeta
  | .removeMeta => some .removeId
  | .removeId => some .removeGraph
  | .removeGraph => some .putMeta
  | .putMeta => some .index
  | .index => some .applyRest
  | .applyRest => none

/-- The old version is not complete any more, and the new one is not in the id index yet. -/
def hidden : Stage → Bool
  | .removeId => true
  | .removeGraph => true
  | .putMeta => true
  | .index => true
  | _ => false

/-- The id is not in the id index. -/
def unlisted : Stage → Bool
  | .removeGraph => true
  | .putMeta => true
  | .index => true
  | _ => false

/-- The stages that write the id index. -/
def writesIds : Stage → Bool
  | .removeId => true
  | .index => true
  | _ => false

/-- Execute a stage. -/
def exec (E : Env) (io : Io) (u : Update) : Stage → Engine → Except StorageError Unit × Engine
  | .put, e => e.exec E io (.put u.offset u.record.embedding)
  | .syncVectors, e => e.exec E io .syncVectors
  | .log, e => e.exec E io (.log [.replace u.oldOffset u.offset u.record])
  | .removeSecondary, e =>
    (.ok (), match e.metadata.get u.oldOffset with
      | none => e
      | some record =>
        { e with
          payloadIndex := e.payloadIndex.remove E.parseValue u.oldOffset record.payload
          scopeIndex := e.scopeIndex.remove u.oldOffset record.scope
          textIndex := e.textIndex.erase u.oldOffset })
  | .removeMeta, e => (.ok (), { e with metadata := e.metadata.remove u.oldOffset })
  | .removeId, e => (.ok (), { e with idIndex := e.idIndex.erase u.id })
  | .removeGraph, e => (.ok (), { e with graph := e.graph.removeMemory u.id })
  | .putMeta, e => (.ok (), { e with metadata := e.metadata.putBatch [(u.offset, u.record)] })
  | .index, e =>
    match indexRecord E (u.offset, u.record) e with
    | (.error err, e) => (.error err, e)
    | (.ok _, e) =>
      if !io.textAdd then (.error (.indexError "tantivy add"), e)
      else (.ok (), { e with textIndex := e.textIndex.insert u.offset u.record.text })
  | .applyRest, e =>
    let e := { e with graph := addToGraph E e.graph (u.offset, u.record) }
    match e.segments.insertAll e.config [(u.offset, u.record)] false with
    | (r, segments) => (r, { e with segments := segments })

section

variable (E : Env) (io : Io) (u : Update)

/-- Dropping a record from the indexes is four stages. -/
lemma runAll_remove (rest : List Stage) (e : Engine) :
    runAll (exec E io u) ([.removeSecondary, .removeMeta, .removeId, .removeGraph] ++ rest) e =
      runAll (exec E io u) rest (e.removeFromIndexes E u.id u.oldOffset) := by
  simp only [List.cons_append, List.nil_append, runAll, exec, removeFromIndexes]
  cases e.metadata.get u.oldOffset <;> rfl

/-- Applying the new version is three stages. -/
lemma runAll_apply (e : Engine) :
    runAll (exec E io u) [.putMeta, .index, .applyRest] e =
      e.applyBatch E io [(u.offset, u.record)] := by
  simp only [runAll, exec, applyBatch]
  rcases indexRecord E (u.offset, u.record)
    { e with metadata := e.metadata.putBatch [(u.offset, u.record)] } with ⟨_ | _, e'⟩
  · rfl
  · cases io.textAdd with
    | false => rfl
    | true =>
      simp only [Bool.not_true, Bool.false_eq_true, if_false, List.foldl_cons, List.foldl_nil]
      rcases SegmentHolder.insertAll _ _ _ _ with ⟨_ | _, _⟩ <;> rfl

/-- The stages of a commit, one after the other, are its plan. -/
theorem runAll_stages (e : Engine) :
    runAll (exec E io u) all e = runAll (Engine.exec E io) u.plan e := by
  rw [all, Update.plan]
  refine runAll_cons_congr (fun _ => by rfl) (fun e => ?_) e
  refine runAll_cons_congr (fun _ => by rfl) (fun e => ?_) e
  refine runAll_cons_congr (fun _ => by rfl) (fun e => ?_) e
  refine (runAll_remove E io u [.putMeta, .index, .applyRest] e).trans ?_
  rw [runAll_apply]
  show _ = runAll _ [Action.removeFromIndexes _ _, .applyBatch _] e
  simp only [runAll, Engine.exec]
  rcases Engine.applyBatch E io _ _ with ⟨_ | _, _⟩ <;> rfl

end

/-! ### What a stage changes -/

/-- The id index after a stage. -/
def idsAfter (u : Update) (ids : Std.ExtTreeMap String PointOffset) :
    Stage → Std.ExtTreeMap String PointOffset
  | .removeId => ids.erase u.id
  | .index => ids.insert u.record.id u.offset
  | _ => ids

/-- The metadata after a stage. -/
def metadataAfter (u : Update) (m : MetadataStore) : Stage → MetadataStore
  | .removeMeta => m.remove u.oldOffset
  | .putMeta => m.put u.offset u.record
  | _ => m

/-- What a completed stage changes of the id index, the metadata and the vectors. -/
lemma exec_eq_ok {e e' : Engine} (h : stage.exec E io u e = (.ok (), e')) :
    e'.idIndex = stage.idsAfter u e.idIndex ∧ e'.metadata = stage.metadataAfter u e.metadata ∧
      (stage = .put → (e'.vectors.get u.offset).isSome) ∧
      ∀ o, (stage = .put → o ≠ u.offset) → (e.vectors.get o).isSome →
        e'.vectors.get o = e.vectors.get o := by
  cases stage with
  | put =>
    simp only [exec, Engine.exec, Prod.mk.injEq] at h
    obtain ⟨hok, rfl⟩ := h
    obtain ⟨hself, hothers⟩ := VectorStore.get_put (Prod.ext hok rfl)
    exact ⟨rfl, rfl, fun _ => by simp [hself], fun o hne => hothers o (hne rfl)⟩
  | syncVectors =>
    simp only [exec, Engine.exec, Prod.mk.injEq] at h
    obtain ⟨-, rfl⟩ := h
    exact ⟨rfl, rfl, by simp⟩
  | log =>
    simp only [exec, Engine.exec] at h
    split at h
    · cases h
    · obtain ⟨-, rfl⟩ := Prod.mk.inj h
      exact ⟨rfl, rfl, by simp⟩
  | removeSecondary =>
    cases h
    cases e.metadata.get u.oldOffset <;> exact ⟨rfl, rfl, by simp⟩
  | removeMeta | removeId | removeGraph | putMeta =>
    cases h
    exact ⟨rfl, rfl, by simp⟩
  | index =>
    simp only [exec, indexRecord] at h
    rcases hadd : e.payloadIndex.add E.parseValue u.offset u.record.payload with
      ⟨_ | _, payloadIndex⟩
    · simp [hadd] at h
    · simp only [hadd] at h
      split at h
      · cases h
      · cases h
        exact ⟨rfl, rfl, by simp⟩
  | applyRest =>
    simp only [exec, Prod.mk.injEq] at h
    obtain ⟨-, rfl⟩ := h
    exact ⟨rfl, rfl, by simp⟩

end Stage

/-! ## Threads -/

/-- What a thread is doing. -/
inductive Phase
  | idle
  /-- An update has found its id. -/
  | checked (now : ℕ) (input : WriteInput)
  /-- An update holds the write lock, and this is its next stage. -/
  | committing (u : Update) (stage : Stage)
  /-- An update returned. -/
  | updated (id : String) (reply : Bool)
  /-- A lookup holds the id index, and has found an offset. -/
  | holding (id : String) (offset : PointOffset)
  /-- It has read the metadata as well. -/
  | hydrating (id : String) (offset : PointOffset) (record : MetaRecord)
  /-- A lookup returned. -/
  | found (id : String) (reply : Option Record)

/-- The store, its locks and its threads. -/
structure Sys (T : Type) where
  engine : Engine
  /-- The write lock is taken. -/
  writing : Bool
  /-- The number of threads that hold the id index for reading. -/
  readers : ℕ
  phase : T → Phase

/-- What a thread does next. -/
inductive Move
  /-- Start an update: look the id up. -/
  | check (now : ℕ) (input : WriteInput)
  /-- Take the write lock; the vocabulary was read before. -/
  | lock (vocab : ConceptVocabulary)
  | commit (io : Io)
  /-- Start a lookup. -/
  | lookup (id : String)
  | readMeta
  | readVector
  /-- Be ready for the next call. -/
  | again

namespace Sys

variable {T : Type} [DecidableEq T]

/-- The thread goes on with another phase. -/
def go (s : Sys T) (t : T) (phase : Phase) : Sys T :=
  { s with phase := update s.phase t phase }

/-- One step of a thread; none if it is not at it, has to wait, or would fail. -/
def step (E : Env) (s : Sys T) (t : T) (m : Move) : Option (Sys T) :=
  match s.phase t, m with
  | .idle, .check now input =>
    if input.id ∈ s.engine.idIndex then some (s.go t (.checked now input))
    else some (s.go t (.updated input.id false))
  | .checked now input, .lock vocab =>
    if s.writing then none
    else
      match s.engine.beginUpdate E vocab now input with
      | .error _ => none
      | .ok none => some (s.go t (.updated input.id false))
      | .ok (some (u, e)) =>
        some ({ s with engine := e, writing := true }.go t (.committing u .put))
  | .committing u stage, .commit io =>
    if stage.writesIds ∧ s.readers ≠ 0 then none
    else
      match stage.exec E io u s.engine with
      | (.error _, _) => none
      | (.ok _, e) =>
        match stage.next with
        | some stage => some ({ s with engine := e }.go t (.committing u stage))
        | none => some ({ s with engine := e, writing := false }.go t (.updated u.id true))
  | .idle, .lookup id =>
    match s.engine.idIndex[id]? with
    | none => some (s.go t (.found id none))
    | some offset => some ({ s with readers := s.readers + 1 }.go t (.holding id offset))
  | .holding id offset, .readMeta =>
    match s.engine.metadata.get offset with
    | none => some ({ s with readers := s.readers - 1 }.go t (.found id none))
    | some record => some (s.go t (.hydrating id offset record))
  | .hydrating id offset record, .readVector =>
    some ({ s with readers := s.readers - 1 }.go t
      (.found id ((s.engine.vectors.get offset).map record.withEmbedding)))
  | .updated _ _, .again => some (s.go t .idle)
  | .found _ _, .again => some (s.go t .idle)
  | _, _ => none

/-- No update of the id is between its two versions. -/
def Settled (s : Sys T) (id : String) : Prop :=
  ∀ t u stage, s.phase t = .committing u stage → u.id = id → stage.hidden = false

/-- No update of the id has taken it out of the id index. -/
def Listed (s : Sys T) (id : String) : Prop :=
  ∀ t u stage, s.phase t = .committing u stage → u.id = id → stage.unlisted = false

/-- An update looks at the id index only while no other one has taken its id out, an id is looked up
only while no update of it is between its versions, and metadata is removed only while no lookup is
about to read it. -/
def Undisturbed (s : Sys T) (t : T) : Move → Prop
  | .check _ input => s.Listed input.id
  | .lookup id => s.Settled id
  | .commit _ => ∀ u, s.phase t = .committing u .removeMeta →
      ∀ t' id, s.phase t' ≠ .holding id u.oldOffset
  | _ => True

/-- The states of the runs whose steps all satisfy the condition. -/
inductive Run (E : Env) (s : Sys T) : Sys T → Prop
  | refl : Run E s s
  | step {s' s'' : Sys T} (t : T) (m : Move) : Run E s s' → s'.Undisturbed t m →
      s'.step E t m = some s'' → Run E s s''

/-- Take steps one after the other. -/
def steps (E : Env) : Sys T → List (T × Move) → Option (Sys T)
  | s, [] => some s
  | s, (t, m) :: moves => (s.step E t m).bind fun s' => steps E s' moves

/-! ## The invariant -/

/-- A record of an id is complete at an offset: it has its metadata and its vector. -/
def Stored (e : Engine) (id : String) (o : PointOffset) : Prop :=
  (∃ m, e.metadata.records[o]? = some m ∧ m.id = id) ∧ (e.vectors.get o).isSome

/-- What is known at a stage of a commit. -/
structure Committing (e : Engine) (u : Update) (stage : Stage) : Prop where
  id : u.record.id = u.id
  allocated : u.offset < e.metadata.nextOffset
  /-- Before its metadata is removed, the old version is the current one. -/
  old : stage ∈ [.put, .syncVectors, .log, .removeSecondary, .removeMeta] →
    e.idIndex[u.id]? = some u.oldOffset ∧ Stored e u.id u.oldOffset
  /-- The new vector is stored first. -/
  vector : stage ≠ .put → (e.vectors.get u.offset).isSome
  /-- The new offset has no metadata before it gets its own. -/
  unused : stage ∉ [.index, .applyRest] → e.metadata.records[u.offset]? = none
  /-- And it has them when the id is entered. -/
  new : stage = .index → e.metadata.records[u.offset]? = some (MetaRecord.ofRecord u.record)
  /-- The metadata of the old version is removed before its id. -/
  removed : stage = .removeId → e.idIndex[u.id]? = some u.oldOffset ∧
    e.metadata.records[u.oldOffset]? = none
  unlisted : stage.unlisted = true → e.idIndex[u.id]? = none

/-- What holds of a thread that does not commit: `live` are the ids live at the start, `was` the
versions that an id has had. -/
def Fits (live : String → Prop) (was : String → Record → Prop) (e : Engine) : Phase → Prop
  | .holding id o => live id ∧ Stored e id o ∧ ∀ record, e.getRecord o = some record → was id record
  | .hydrating id o m => m.id = id ∧ o < e.metadata.nextOffset ∧
      ∃ v, e.vectors.get o = some v ∧ was id (m.withEmbedding v)
  | .updated id b => live id → b = true
  | .found id r => live id → ∃ record, r = some record ∧ record.id = id ∧ was id record
  | _ => True

/-- The invariant. -/
structure Inv (live : String → Prop) (was : String → Record → Prop) (s : Sys T) : Prop where
  fresh : ∀ o, s.engine.metadata.nextOffset ≤ o → s.engine.metadata.records[o]? = none
  /-- Who commits holds the write lock, alone. -/
  locked : ∀ t u stage, s.phase t = .committing u stage → s.writing = true ∧
    ∀ t' u' stage', s.phase t' = .committing u' stage' → t' = t
  ids : ∀ id o, s.engine.idIndex[id]? = some o → live id
  visible : ∀ id, live id → s.Settled id →
    ∃ o, s.engine.idIndex[id]? = some o ∧ Stored s.engine id o
  committing : ∀ t u stage, s.phase t = .committing u stage →
    live u.id ∧ Committing s.engine u stage
  fits : ∀ t, Fits live was s.engine (s.phase t)
  /-- No vector is about to be stored where a lookup is about to read one. -/
  apart : ∀ t u, s.phase t = .committing u .put →
    ∀ t' id o m, s.phase t' = .hydrating id o m → o ≠ u.offset

/-- A state to start from: no call is being executed, and every id in the index has its record. -/
structure Start (s : Sys T) : Prop where
  idle : ∀ t, s.phase t = .idle
  unlocked : s.writing = false
  stored : ∀ id o, s.engine.idIndex[id]? = some o → Stored s.engine id o
  fresh : ∀ o, s.engine.metadata.nextOffset ≤ o → s.engine.metadata.records[o]? = none

omit [DecidableEq T] in
/-- The invariant holds at the start. -/
lemma Start.inv {s : Sys T} (h : s.Start) (was : String → Record → Prop) :
    s.Inv (· ∈ s.engine.idIndex) was where
  fresh := h.fresh
  locked := fun t u stage ht => by simp [h.idle t] at ht
  ids := fun id o ho => Std.ExtTreeMap.mem_iff_isSome_getElem?.mpr (by simp [ho])
  visible := fun id hid _ => by
    obtain ⟨o, ho⟩ := isSome_iff_exists.mp
      (Std.ExtTreeMap.mem_iff_isSome_getElem?.mp hid)
    exact ⟨o, ho, h.stored id o ho⟩
  committing := fun t u stage ht => by simp [h.idle t] at ht
  fits := fun t => by simp [h.idle t, Fits]
  apart := fun t u ht => by simp [h.idle t] at ht

/-! ## Steps -/

variable {m : Move}

section Steps

variable {E : Env} {live : String → Prop} {was : String → Record → Prop} {s s' : Sys T} {t : T}

/-- The invariant after a step of a thread that goes on with `p`. -/
lemma Inv.proceed {e : Engine} {b : Bool} {n : ℕ} {p : Phase}
    (hfresh : ∀ o, e.metadata.nextOffset ≤ o → e.metadata.records[o]? = none)
    (hlocked : ∀ t₁ u stage, update s.phase t p t₁ = .committing u stage → b = true ∧
      ∀ t₂ u' stage', update s.phase t p t₂ = .committing u' stage' → t₂ = t₁)
    (hids : ∀ id o, e.idIndex[id]? = some o → live id)
    (hvisible : ∀ id, live id → ((⟨e, b, n, s.phase⟩ : Sys T).go t p).Settled id →
      ∃ o, e.idIndex[id]? = some o ∧ Stored e id o)
    (hcommitting : ∀ t' u stage, update s.phase t p t' = .committing u stage →
      live u.id ∧ Committing e u stage)
    (hfits : ∀ t, Fits live was e (s.phase t)) (hp : Fits live was e p)
    (hapart : ∀ t₁ u, update s.phase t p t₁ = .committing u .put →
      ∀ t₂ id o m, update s.phase t p t₂ = .hydrating id o m → o ≠ u.offset) :
    ((⟨e, b, n, s.phase⟩ : Sys T).go t p).Inv live was :=
  ⟨hfresh, hlocked, hids, hvisible, hcommitting,
    (forall_update_iff _ fun _ p => Fits live was e p).mpr ⟨hp, fun t _ => hfits t⟩, hapart⟩

/-- A step that only changes what its thread is doing, outside of a commit. -/
lemma Inv.think (h : s.Inv live was) {n : ℕ} {p : Phase}
    (hold : ∀ u stage, s.phase t ≠ .committing u stage) (hnew : ∀ u stage, p ≠ .committing u stage)
    (hp : Fits live was s.engine p) (hread : ∀ id o m, p = .hydrating id o m →
      ∃ m, s.engine.metadata.records[o]? = some m) :
    (({ s with readers := n } : Sys T).go t p).Inv live was := by
  have hcommitting : ∀ t' u stage, update s.phase t p t' = .committing u stage ↔
      s.phase t' = .committing u stage := by
    intro t' u stage
    by_cases ht : t' = t
    · subst ht
      simp [hnew u stage, hold u stage]
    · simp [ht]
  refine Inv.proceed h.fresh ?_ h.ids ?_ ?_ h.fits hp ?_
  · intro t' u stage ht'
    obtain ⟨hw, hone⟩ := h.locked t' u stage ((hcommitting t' u stage).mp ht')
    exact ⟨hw, fun t'' u' stage' ht'' => hone t'' u' stage' ((hcommitting t'' u' stage').mp ht'')⟩
  · exact fun id hid hs => h.visible id hid fun t' u stage ht' =>
      hs t' u stage ((hcommitting t' u stage).mpr ht')
  · exact fun t' u stage ht' => h.committing t' u stage ((hcommitting t' u stage).mp ht')
  · intro t₁ u ht₁ t₂ id o m ht₂
    have hput := (hcommitting t₁ u .put).mp ht₁
    by_cases ht : t₂ = t
    · subst ht
      obtain ⟨m', hm'⟩ := hread id o m (by simpa using ht₂)
      rintro rfl
      cases hm'.symm.trans ((h.committing t₁ u _ hput).2.unused (by simp))
    · exact h.apart t₁ u hput t₂ id o m (by simpa [ht] using ht₂)

/-- What starting a commit gives; none is started only if the id is not there any more. -/
lemma beginUpdate_spec {r : Option (Update × Engine)}
    (h : e.beginUpdate E vocab now input = .ok r) : (r = none → e.idIndex[input.id]? = none) ∧
    ∀ u e', r = some (u, e') →
      e.idIndex[u.id]? = some u.oldOffset ∧ u.record.id = u.id ∧ u.offset = e.metadata.nextOffset ∧
      e' = { e with metadata := { e.metadata with
        nextOffset := e.metadata.nextOffset + 1, nextSeq := e.metadata.nextSeq + 1 } } := by
  rw [beginUpdate] at h
  cases hprepare : prepare E e.config vocab input with
  | error err => simp [hprepare, Except.map] at h
  | ok prepared =>
    obtain rfl := Except.ok.inj (hprepare ▸ h : Except.ok _ = _)
    cases hold : e.idIndex[input.id]? with
    | none => simp
    | some old =>
      refine ⟨by simp, ?_⟩
      rintro u e' ⟨⟩
      exact ⟨hold, (prepare_eq_ok hprepare).1, rfl, rfl⟩

/-- Starting a commit takes a new offset. -/
lemma Inv.lock (h : s.Inv live was) (ht : s.phase t = .checked now input)
    (hfree : s.writing = false)
    (hbegin : s.engine.beginUpdate E vocab now input = .ok (some (u, e))) :
    (({ s with engine := e, writing := true } : Sys T).go t (.committing u .put)).Inv live was := by
  obtain ⟨hold, hid, hoffset, rfl⟩ := (beginUpdate_spec hbegin).2 u e rfl
  have hnone : ∀ t' u' stage, s.phase t' ≠ .committing u' stage := by
    intro t' u' stage ht'
    have hw := (h.locked t' u' stage ht').1
    simp [hfree] at hw
  have hsettled : ∀ id, s.Settled id := fun id t' u' stage ht' => absurd ht' (hnone t' u' stage)
  have hlive : live u.id := h.ids u.id u.oldOffset hold
  obtain ⟨o, ho, hstored⟩ := h.visible u.id hlive (hsettled u.id)
  obtain rfl : o = u.oldOffset := some.inj (ho.symm.trans hold)
  have hone : ∀ t' u' stage, update s.phase t (.committing u .put) t' =
      .committing u' stage → t' = t ∧ u' = u ∧ stage = .put := by
    intro t' u' stage ht'
    by_cases htt : t' = t
    · subst htt
      simp only [update_self, Phase.committing.injEq] at ht'
      exact ⟨rfl, ht'.1.symm, ht'.2.symm⟩
    · rw [update_of_ne htt] at ht'
      exact absurd ht' (hnone t' u' stage)
  have hfits : ∀ t, Fits live was { s.engine with metadata := { s.engine.metadata with
      nextOffset := s.engine.metadata.nextOffset + 1
      nextSeq := s.engine.metadata.nextSeq + 1 } } (s.phase t) := by
    intro t
    have hfits := h.fits t
    cases ht' : s.phase t <;> rw [ht'] at hfits
    case hydrating id o m => exact ⟨hfits.1, hfits.2.1.trans (Nat.lt_succ_self _), hfits.2.2⟩
    all_goals exact hfits
  refine Inv.proceed (fun o ho => h.fresh o (Nat.le_of_succ_le ho)) ?_ h.ids
    (fun id hid _ => h.visible id hid (hsettled id)) ?_ hfits trivial ?_
  · intro t' u' stage ht'
    exact ⟨rfl, fun t'' u'' stage'' ht'' =>
      (hone t'' u'' stage'' ht'').1.trans (hone t' u' stage ht').1.symm⟩
  · intro t' u' stage ht'
    obtain ⟨-, rfl, rfl⟩ := hone t' u' stage ht'
    refine ⟨hlive, hid, ?_, fun _ => ⟨hold, hstored⟩, fun hne => absurd rfl hne, fun _ => ?_,
      by simp, by simp, by simp [Stage.unlisted]⟩
    · exact hoffset ▸ Nat.lt_succ_self _
    · exact h.fresh _ hoffset.ge
  · intro t₁ u₁ ht₁ t₂ id o m ht₂
    obtain ⟨-, rfl, -⟩ := hone t₁ u₁ .put ht₁
    have htt : t₂ ≠ t := by
      rintro rfl
      simp at ht₂
    have hfits₂ := h.fits t₂
    rw [update_of_ne htt] at ht₂
    rw [ht₂] at hfits₂
    exact hoffset ▸ hfits₂.2.1.ne

variable {o : PointOffset}

/-- The metadata a stage leaves, at an offset it does not touch. -/
lemma getElem?_metadataAfter {m : MetadataStore}
    (hold : stage = .removeMeta → u.oldOffset = o → m.records[o]? = none)
    (hnew : stage = .putMeta → o ≠ u.offset) :
    (stage.metadataAfter u m).records[o]? = m.records[o]? := by
  cases stage with
  | removeMeta =>
    rw [Stage.metadataAfter, getElem?_records_remove, ite_eq_right_iff]
    exact fun heq => (hold rfl heq).symm
  | putMeta =>
    rw [Stage.metadataAfter, put, getElem?_records_putMeta, if_neg (hnew rfl).symm]
  | _ => rfl

/-- A stage takes no offset. -/
lemma nextOffset_metadataAfter {m : MetadataStore} :
    (stage.metadataAfter u m).nextOffset = m.nextOffset := by
  cases stage <;> rfl

variable {id : String}

/-- A stage leaves a complete record as it is, unless it removes its metadata. -/
lemma Stored.exec {e e' : Engine} (h : Stored e id o) (hcommitting : Committing e u stage)
    (hexec : stage.exec E io u e = (.ok (), e')) (hne : stage = .removeMeta → o ≠ u.oldOffset) :
    Stored e' id o ∧ e'.getRecord o = e.getRecord o := by
  obtain ⟨-, hmetadata, -, hvectors⟩ := Stage.exec_eq_ok hexec
  obtain ⟨⟨m, hm, hid⟩, hvector⟩ := h
  have hunused : stage ∉ [.index, .applyRest] → o ≠ u.offset := by
    rintro hstage rfl
    cases hm.symm.trans (hcommitting.unused hstage)
  have hrecord : e'.metadata.records[o]? = e.metadata.records[o]? := by
    rw [hmetadata, getElem?_metadataAfter (fun h heq => absurd heq.symm (hne h))
      fun hstage => hunused (by simp [hstage])]
  have hget := hvectors o (fun hstage => hunused (by simp [hstage])) hvector
  refine ⟨⟨⟨m, hrecord.trans hm, hid⟩, hget ▸ hvector⟩, ?_⟩
  rw [getRecord, getRecord, hget, MetadataStore.get, MetadataStore.get, hrecord]

/-- The commit at its next stage. -/
lemma Committing.next {stage stage' : Stage} {e e' : Engine}
    (h : Committing e u stage) (hexec : stage.exec E io u e = (.ok (), e'))
    (hnext : stage.next = some stage') : Committing e' u stage' := by
  obtain ⟨hids, hmetadata, hput, hvectors⟩ := Stage.exec_eq_ok hexec
  constructor
  · exact h.id
  · rw [hmetadata, nextOffset_metadataAfter]
    exact h.allocated
  · intro hmem
    have hbefore : stage ∈ [.put, .syncVectors, .log, .removeSecondary] := by
      cases stage <;> simp_all [Stage.next] <;> subst hnext <;> simp at hmem
    obtain ⟨hold, hstored⟩ := h.old (by simp at hbefore ⊢; tauto)
    refine ⟨?_, (hstored.exec h hexec fun heq => by simp [heq] at hbefore).1⟩
    rw [hids]
    cases stage <;> simp_all [Stage.idsAfter]
  · intro _
    by_cases hfirst : stage = .put
    · exact hput hfirst
    · rw [hvectors u.offset (fun heq => absurd heq hfirst) (h.vector hfirst)]
      exact h.vector hfirst
  · intro hnot
    have hne : stage ∉ [.putMeta, .index, .applyRest] := by
      cases stage <;> simp_all [Stage.next]; (subst hnext; simp at hnot ⊢)
    have hunused := h.unused (by simp at hne ⊢; tauto)
    rw [hmetadata, getElem?_metadataAfter (fun _ _ => hunused) fun heq => by simp [heq] at hne,
      hunused]
  · rintro rfl
    obtain rfl : stage = .putMeta := by cases stage <;> simp_all [Stage.next]
    rw [hmetadata, Stage.metadataAfter, put, getElem?_records_putMeta, if_pos rfl]
  · rintro rfl
    obtain rfl : stage = .removeMeta := by cases stage <;> simp_all [Stage.next]
    refine ⟨by rw [hids]; exact (h.old (by simp)).1, ?_⟩
    rw [hmetadata, Stage.metadataAfter, getElem?_records_remove, if_pos rfl]
  · intro hunlisted
    rw [hids]
    by_cases hremove : stage = .removeId
    · simp [hremove, Stage.idsAfter]
    · -- Between the removal and the entry of the new version nothing is written.
      have hstage : stage.unlisted = true ∧ stage.idsAfter u e.idIndex = e.idIndex := by
        cases stage <;> simp_all [Stage.next] <;> subst hnext <;>
          simp_all [Stage.unlisted, Stage.idsAfter]
      rw [hstage.2]
      exact h.unlisted hstage.1

/-- The id index a stage leaves, at another id. -/
lemma getElem?_idsAfter_of_ne
    {ids : Std.ExtTreeMap String PointOffset} (hrecord : u.record.id = u.id)
    (hne : id ≠ u.id) : (stage.idsAfter u ids)[id]? = ids[id]? := by
  cases stage with
  | removeId => simp [Stage.idsAfter, Std.ExtTreeMap.getElem?_erase, hne.symm]
  | index => simp [Stage.idsAfter, Std.ExtTreeMap.getElem?_insert, hrecord, hne.symm]
  | _ => rfl

omit [DecidableEq T] in
/-- After a stage an id is found with its record, unless its update is between the versions. -/
lemma Inv.visible_exec (h : s.Inv live was)
    (ht : s.phase t = .committing u stage) (hexec : stage.exec E io u s.engine = (.ok (), e))
    (hid : live id)
    (hsettled : id = u.id → ∀ stage', stage.next = some stage' → stage'.hidden = false) :
    ∃ o, e.idIndex[id]? = some o ∧ Stored e id o := by
  have hcommitting := (h.committing t u stage ht).2
  obtain ⟨hids, hmetadata, -, hvectors⟩ := Stage.exec_eq_ok hexec
  -- The commit is the only one.
  have hs (hstage : u.id = id → stage.hidden = false) : s.Settled id := by
    intro t' u' stage' ht' hid'
    obtain rfl := (h.locked t u stage ht).2 t' u' stage' ht'
    obtain ⟨rfl, rfl⟩ := Phase.committing.inj (ht.symm.trans ht')
    exact hstage hid'
  by_cases hne : id = u.id
  · subst hne
    by_cases hindex : stage = .index
    · -- The new version is entered.
      subst hindex
      refine ⟨u.offset, ?_, ⟨MetaRecord.ofRecord u.record, ?_, hcommitting.id⟩, ?_⟩
      · simp [hids, Stage.idsAfter, hcommitting.id]
      · rw [hmetadata]
        exact hcommitting.new rfl
      · have hvector := hcommitting.vector (by simp)
        exact hvectors _ (by simp) hvector ▸ hvector
    · -- The version that is found stays; every other stage leads into the hidden part.
      have hnot : stage ∉ [.removeMeta, .removeId, .removeGraph, .putMeta] := by
        cases stage <;> simp_all [Stage.next, Stage.hidden]
      obtain ⟨o, ho, hstored⟩ := h.visible u.id hid <| hs fun _ => by
        cases stage <;> simp_all [Stage.hidden]
      refine ⟨o, ?_, (hstored.exec hcommitting hexec fun heq => by simp [heq] at hnot).1⟩
      rw [hids]
      cases stage <;> simp_all [Stage.idsAfter]
  · obtain ⟨o, ho, hstored⟩ := h.visible id hid (hs fun hid' => absurd hid'.symm hne)
    refine ⟨o, by rw [hids, getElem?_idsAfter_of_ne hcommitting.id hne, ho],
      (hstored.exec hcommitting hexec ?_).1⟩
    -- The metadata that is removed belongs to the updated id.
    rintro rfl rfl
    obtain ⟨⟨m, hm, hmid⟩, -⟩ := hstored
    obtain ⟨⟨m', hm', hmid'⟩, -⟩ := (hcommitting.old (by simp)).2
    cases hm.symm.trans hm'
    exact hne (hmid.symm.trans hmid')

/-- A stage of a commit keeps the invariant, whether it is the last one or not. -/
lemma Inv.exec (h : s.Inv live was) {b : Bool} {p : Phase} (ht : s.phase t = .committing u stage)
    (hexec : stage.exec E io u s.engine = (.ok (), e))
    (hheld : stage = .removeMeta → ∀ t' id, s.phase t' ≠ .holding id u.oldOffset)
    (hp : (∃ stage', stage.next = some stage' ∧ p = .committing u stage' ∧ b = true) ∨
      (stage.next = none ∧ p = .updated u.id true ∧ b = false)) :
    (({ s with engine := e, writing := b } : Sys T).go t p).Inv live was := by
  obtain ⟨hlive, hcommitting⟩ := h.committing t u stage ht
  obtain ⟨hids, hmetadata, -, hvectors⟩ := Stage.exec_eq_ok hexec
  -- The commit is the only one, and stays so.
  have hone : ∀ t' u' stage', update s.phase t p t' = .committing u' stage' →
      t' = t ∧ u' = u ∧ stage.next = some stage' ∧ b = true := by
    intro t' u' stage' ht'
    by_cases htt : t' = t
    · subst htt
      rw [update_self] at ht'
      rcases hp with ⟨stage'', hnext, rfl, hb⟩ | ⟨-, rfl, -⟩
      · obtain ⟨rfl, rfl⟩ := Phase.committing.inj ht'
        exact ⟨rfl, rfl, hnext, hb⟩
      · cases ht'
    · rw [update_of_ne htt] at ht'
      exact absurd ((h.locked t u stage ht).2 t' u' stage' ht') htt
  refine Inv.proceed ?_ ?_ ?_ ?_ ?_ ?_ ?_ ?_
  · intro o ho
    rw [hmetadata, nextOffset_metadataAfter] at ho
    rw [hmetadata, getElem?_metadataAfter (fun _ _ => h.fresh o ho)
      (fun _ => (hcommitting.allocated.trans_le ho).ne'), h.fresh o ho]
  · intro t' u' stage' ht'
    obtain ⟨rfl, -, -, hb⟩ := hone t' u' stage' ht'
    exact ⟨hb, fun t'' u'' stage'' ht'' => (hone t'' u'' stage'' ht'').1⟩
  · intro id o ho
    by_cases hne : id = u.id
    · exact hne ▸ hlive
    · rw [hids, getElem?_idsAfter_of_ne hcommitting.id hne] at ho
      exact h.ids id o ho
  · intro id hid hsettled
    refine h.visible_exec ht hexec hid ?_
    rintro rfl stage' hnext
    rcases hp with ⟨stage'', hnext', rfl, -⟩ | ⟨hnone, -, -⟩
    · cases hnext.symm.trans hnext'
      exact hsettled t u stage' (update_self ..) rfl
    · rw [hnone] at hnext
      cases hnext
  · intro t' u' stage' ht'
    obtain ⟨rfl, rfl, hnext, -⟩ := hone t' u' stage' ht'
    exact ⟨hlive, hcommitting.next hexec hnext⟩
  · intro t'
    have hfits := h.fits t'
    cases ht' : s.phase t' <;> rw [ht'] at hfits
    case holding id o =>
      obtain ⟨hid, hstored, hwas⟩ := hfits
      obtain ⟨hstored', hget⟩ := hstored.exec hcommitting hexec <| by
        rintro heq rfl
        exact hheld heq t' id ht'
      exact ⟨hid, hstored', hget ▸ hwas⟩
    case hydrating id o m =>
      obtain ⟨hmid, hlt, v, hv, hwas⟩ := hfits
      have hget := hvectors o (fun heq => h.apart t u (heq ▸ ht) t' id o m ht') (by simp [hv])
      exact ⟨hmid, by rwa [hmetadata, nextOffset_metadataAfter], v, hget.trans hv, hwas⟩
    all_goals exact hfits
  · rcases hp with ⟨_, -, rfl, -⟩ | ⟨-, rfl, -⟩
    · trivial
    · exact fun _ => rfl
  · -- No stage is followed by the first one.
    intro t₁ u₁ ht₁
    have hnext := (hone t₁ u₁ .put ht₁).2.2.1
    cases stage <;> cases hnext

omit [DecidableEq T] in
/-- An id is in the id index unless an update has taken it out. -/
lemma Inv.listed (h : s.Inv live was) (hid : live id) (hlisted : s.Listed id) :
    ∃ o, s.engine.idIndex[id]? = some o := by
  by_cases hs : s.Settled id
  · obtain ⟨o, ho, -⟩ := h.visible id hid hs
    exact ⟨o, ho⟩
  · simp only [Settled, not_forall] at hs
    obtain ⟨t, u, stage, ht, rfl, hhidden⟩ := hs
    have hin := hlisted t u stage ht rfl
    obtain rfl : stage = .removeId := by
      cases stage <;> simp_all [Stage.hidden, Stage.unlisted]
    exact ⟨_, ((h.committing t u _ ht).2.removed rfl).1⟩

/-- An update that finds nothing, though no other one has taken its id out. -/
lemma Inv.notFound (h : s.Inv live was) (ht : s.phase t = .idle) (hlisted : s.Listed id)
    (habsent : id ∉ s.engine.idIndex) : (s.go t (.updated id false)).Inv live was := by
  refine h.think (by simp [ht]) (by simp) (fun hid => ?_) (by simp)
  obtain ⟨o, ho⟩ := h.listed hid hlisted
  exact absurd (Std.ExtTreeMap.mem_iff_isSome_getElem?.mpr (by simp [ho])) habsent

/-- An update that finds nothing under the lock. With the lock free no update is between two
versions. -/
lemma Inv.gone (h : s.Inv live was) (ht : s.phase t = .checked now input)
    (hfree : s.writing = false) (hnone : s.engine.idIndex[input.id]? = none) :
    (s.go t (.updated input.id false)).Inv live was := by
  refine h.think (by simp [ht]) (by simp) (fun hid => ?_) (by simp)
  obtain ⟨o, ho, -⟩ := h.visible input.id hid fun t' u stage ht' _ =>
    absurd (h.locked t' u stage ht').1 (by simp [hfree])
  cases hnone.symm.trans ho

/-- A commit goes on to its next stage, or returns. -/
lemma Inv.commit (h : s.Inv live was) (ht : s.phase t = .committing u stage)
    (hm : s.Undisturbed t (.commit io)) (hexec : stage.exec E io u s.engine = (.ok (), e)) :
    (match stage.next with
      | some stage => ({ s with engine := e } : Sys T).go t (.committing u stage)
      | none => ({ s with engine := e, writing := false } : Sys T).go t
          (.updated u.id true)).Inv live was := by
  have hheld : stage = .removeMeta → ∀ t' id, s.phase t' ≠ .holding id u.oldOffset := by
    rintro rfl
    exact hm u ht
  split
  · next hnext =>
    have hexec := h.exec ht hexec hheld (.inl ⟨_, hnext, rfl, rfl⟩)
    rwa [← (h.locked t u stage ht).1] at hexec
  · next hnext => exact h.exec ht hexec hheld (.inr ⟨hnext, rfl, rfl⟩)

/-- A lookup that finds nothing, though no update of the id is between its versions. -/
lemma Inv.miss (h : s.Inv live was) (ht : s.phase t = .idle) (hsettled : s.Settled id)
    (hnone : s.engine.idIndex[id]? = none) : (s.go t (.found id none)).Inv live was := by
  refine h.think (by simp [ht]) (by simp) (fun hid => ?_) (by simp)
  obtain ⟨o, ho, -⟩ := h.visible id hid hsettled
  cases hnone.symm.trans ho

/-- A lookup that finds an offset finds the current version there. -/
lemma Inv.hit (h : s.Inv live was) (ht : s.phase t = .idle) (hsettled : s.Settled id)
    (hwas : ∀ id record, s.engine.findRecordById id = some record → was id record)
    (ho : s.engine.idIndex[id]? = some o) :
    (({ s with readers := s.readers + 1 } : Sys T).go t (.holding id o)).Inv live was := by
  have hid := h.ids id o ho
  obtain ⟨o', ho', hstored⟩ := h.visible id hid hsettled
  cases ho.symm.trans ho'
  refine h.think (by simp [ht]) (by simp) ⟨hid, hstored, fun record hrecord => hwas id record ?_⟩
    (by simp)
  rw [findRecordById, ho, bind_some, hrecord]

/-- A lookup reads the metadata, which is there. -/
lemma Inv.readMeta (h : s.Inv live was) (ht : s.phase t = .holding id o) :
    ∃ m, s.engine.metadata.get o = some m ∧ (s.go t (.hydrating id o m)).Inv live was := by
  have hfits := h.fits t
  rw [ht] at hfits
  obtain ⟨-, ⟨⟨m, hm, hid⟩, hvector⟩, hwas⟩ := hfits
  obtain ⟨v, hv⟩ := isSome_iff_exists.mp hvector
  refine ⟨m, hm, h.think (by simp [ht]) (by simp) ⟨hid, ?_, v, hv, hwas _ ?_⟩ ?_⟩
  · by_contra hlt
    cases hm.symm.trans (h.fresh o (not_lt.mp hlt))
  · simp [getRecord, MetadataStore.get, hm, hv]
  · rintro _ _ _ ⟨⟩
    exact ⟨m, hm⟩

/-- A lookup reads the vector, and has the version it was led to. -/
lemma Inv.readVector (h : s.Inv live was) {record : MetaRecord}
    (ht : s.phase t = .hydrating id o record) : (({ s with readers := s.readers - 1 } : Sys T).go t
      (.found id ((s.engine.vectors.get o).map record.withEmbedding))).Inv live was := by
  have hfits := h.fits t
  rw [ht] at hfits
  obtain ⟨hid, -, v, hv, hwas⟩ := hfits
  exact h.think (by simp [ht]) (by simp)
    (fun _ => ⟨record.withEmbedding v, by simp [hv], hid, hwas⟩) (by simp)

/-- A step that satisfies the condition keeps the invariant. -/
lemma Inv.step (h : s.Inv live was) (hm : s.Undisturbed t m)
    (hwas : ∀ id record, s.engine.findRecordById id = some record → was id record)
    (hs : s.step E t m = some s') : s'.Inv live was := by
  unfold Sys.step at hs
  split at hs
  next now input ht =>
    split at hs
    · cases hs
      exact h.think (by simp [ht]) (by simp) trivial (by simp)
    next habsent =>
      cases hs
      exact h.notFound ht hm habsent
  next now input vocab ht =>
    split at hs
    · cases hs
    next hfree =>
    have hfree : s.writing = false := by simpa using hfree
    split at hs
    · cases hs
    next hbegin =>
      cases hs
      exact h.gone ht hfree ((beginUpdate_spec hbegin).1 rfl)
    next hbegin =>
      cases hs
      exact h.lock ht hfree hbegin
  next u stage io ht =>
    split at hs
    · cases hs
    split at hs
    · cases hs
    next hexec =>
    have hcommit := h.commit ht hm hexec
    split at hs <;> cases hs <;> simpa only [*] using hcommit
  next id ht =>
    split at hs <;> cases hs
    next hnone => exact h.miss ht hm hnone
    next o ho => exact h.hit ht hm hwas ho
  next id o ht =>
    obtain ⟨m, hget, hinv⟩ := h.readMeta ht
    rw [hget] at hs
    cases hs
    exact hinv
  next id o m ht =>
    cases hs
    exact h.readVector ht
  next ht =>
    cases hs
    exact h.think (by simp [ht]) (by simp) trivial (by simp)
  next ht =>
    cases hs
    exact h.think (by simp [ht]) (by simp) trivial (by simp)
  next => cases hs

/-- A run whose steps all satisfy the condition keeps the invariant. -/
lemma Run.inv (hrun : Run E s s') (h : s.Inv live was) (hwas : ∀ s₁, Run E s s₁ → Run E s₁ s' →
      ∀ id record, s₁.engine.findRecordById id = some record → was id record) :
    s'.Inv live was := by
  induction hrun with
  | refl => exact h
  | step t m hrun hm hs ih =>
    exact (ih fun s₁ hs₁ hrun₁ => hwas s₁ hs₁ (hrun₁.step t m hm hs)).step hm
      (hwas _ hrun (.step t m .refl hm hs)) hs

/-- A lookup that is led to an offset without metadata finds nothing. -/
lemma step_readMeta (ht : s.phase t = .holding id o)
    (hnone : s.engine.metadata.records[o]? = none) :
    ∃ s', s.step E t .readMeta = some s' ∧ s'.phase t = .found id none := by
  refine ⟨{ s with readers := s.readers - 1 }.go t (.found id none), ?_, update_self ..⟩
  simp only [Sys.step, ht, MetadataStore.get, hnone]

/-- A step that does not satisfy the condition makes a live id appear absent, at once or with the
next step of a lookup. -/
lemma Inv.absent_of_disturbed (h : s.Inv live was) (hm : ¬ s.Undisturbed t m)
    (hs : s.step E t m = some s') :
    ∃ id, live id ∧ (s'.phase t = .updated id false ∨ s'.phase t = .found id none ∨
      ∃ t' s'', s'.step E t' .readMeta = some s'' ∧ s''.phase t' = .found id none) := by
  cases m with
  | check now input =>
    simp only [Undisturbed, Listed, not_forall] at hm
    obtain ⟨t', u, stage, ht', hid, hunlisted⟩ := hm
    obtain ⟨hlive, hcommitting⟩ := h.committing t' u stage ht'
    have hnone := hcommitting.unlisted (by simpa using hunlisted)
    rw [hid] at hlive hnone
    refine ⟨input.id, hlive, .inl ?_⟩
    have habsent : input.id ∉ s.engine.idIndex := by
      simp [Std.ExtTreeMap.mem_iff_isSome_getElem?, hnone]
    cases hphase : s.phase t with
    | idle =>
      simp only [Sys.step, hphase, habsent, if_false, some.injEq] at hs
      simp [← hs, go]
    | _ => simp [Sys.step, hphase] at hs
  | lookup id =>
    simp only [Undisturbed, Settled, not_forall] at hm
    obtain ⟨t', u, stage, ht', rfl, hhidden⟩ := hm
    obtain ⟨hlive, hcommitting⟩ := h.committing t' u stage ht'
    refine ⟨u.id, hlive, .inr ?_⟩
    cases hphase : s.phase t with
    | idle =>
      by_cases hremove : stage = .removeId
      · -- The id leads to an offset without metadata.
        obtain ⟨hids, hnone⟩ := hcommitting.removed hremove
        simp only [Sys.step, hphase, hids, some.injEq] at hs
        subst hs
        exact .inr ⟨t, step_readMeta (update_self ..) hnone⟩
      · have hnone := hcommitting.unlisted
          (by cases stage <;> simp_all [Stage.hidden, Stage.unlisted])
        simp only [Sys.step, hphase, hnone, some.injEq] at hs
        exact .inl (by simp [← hs, go])
    | _ => simp [Sys.step, hphase] at hs
  | commit io =>
    simp only [Undisturbed, not_forall, not_not] at hm
    obtain ⟨u, ht, t', id, ht'⟩ := hm
    have hfits := h.fits t'
    rw [ht'] at hfits
    refine ⟨id, hfits.1, .inr (.inr ⟨t', ?_⟩)⟩
    have htt : t' ≠ t := by
      rintro rfl
      simp [ht] at ht'
    -- The lookup is about to read the metadata that was just removed.
    simp only [Sys.step, ht, Stage.writesIds, Bool.false_eq_true, false_and, if_false] at hs
    cases hexec : Stage.removeMeta.exec E io u s.engine with
    | mk r e =>
      cases r with
      | error err => simp [hexec] at hs
      | ok _ =>
        simp only [hexec, Stage.next, some.injEq] at hs
        have hnone : e.metadata.records[u.oldOffset]? = none := by
          rw [(Stage.exec_eq_ok hexec).2.1, Stage.metadataAfter,
            getElem?_records_remove, if_pos rfl]
        subst hs
        exact step_readMeta ((update_of_ne htt ..).trans ht') hnone
  | lock vocab | readMeta | readVector | again => exact absurd trivial hm

/-- **Updates are atomic when undisturbed.** Threads update and look up ids that are live and never
deleted, with no call failing. If all steps satisfy the condition, every update returns true and
every lookup returns what `find_record_by_id` gives in one state of the run. The condition is exact:
the first step that does not satisfy it makes a live id appear absent. **Proof sketch.** `Inv` is an
invariant: outside of the hidden stages of its update an id leads to a complete record, and what a
lookup is about to read stays. -/
theorem atomic_of_undisturbed {s₀ : Sys T} (hstart : s₀.Start) (hrun : Run E s₀ s) :
    (∀ id ∈ s₀.engine.idIndex, ∀ t, (∀ b, s.phase t = .updated id b → b = true) ∧
      ∀ r, s.phase t = .found id r → ∃ record, r = some record ∧ record.id = id ∧
        ∃ s₁, Run E s₀ s₁ ∧ Run E s₁ s ∧ s₁.engine.findRecordById id = some record) ∧
    ∀ t m s', ¬ s.Undisturbed t m → s.step E t m = some s' →
      ∃ id ∈ s₀.engine.idIndex, s'.phase t = .updated id false ∨ s'.phase t = .found id none ∨
        ∃ t' s'', s'.step E t' .readMeta = some s'' ∧ s''.phase t' = .found id none := by
  have hinv := hrun.inv (hstart.inv fun id record => ∃ s₁, Run E s₀ s₁ ∧ Run E s₁ s ∧
    s₁.engine.findRecordById id = some record) fun s₁ h h' _ _ hfind => ⟨s₁, h, h', hfind⟩
  refine ⟨fun id hid t => ?_, fun t m s' hm hs => ?_⟩
  · have hfits := hinv.fits t
    exact ⟨fun b hb => (hb ▸ hfits : Fits _ _ _ (.updated id b)) hid,
      fun r hr => (hr ▸ hfits : Fits _ _ _ (.found id r)) hid⟩
  · obtain ⟨id, hid, habsent⟩ := hinv.absent_of_disturbed hm hs
    exact ⟨id, hid, habsent⟩

end Steps

/-- A store with threads that are all idle. -/
def ofEngine (e : Engine) : Sys T := ⟨e, false, 0, fun _ => .idle⟩

omit [DecidableEq T] in
/-- A store at rest is a state to start from. -/
lemma start_of_rest {config : StoreConfig} {s : Store} (h : Rest E config True s) :
    (ofEngine s.engine : Sys T).Start := by
  obtain ⟨-, -, flushed, pending, stale, -, hdurable, happlied⟩ := h
  have hrecords := happlied.cached.records
  refine ⟨fun _ => rfl, rfl, ?_, ?_⟩
  · intro id o ho
    change s.engine.idIndex[id]? = some o at ho
    obtain ⟨r, hr, hid⟩ := ((happlied.named trivial).2 id o).mp ho
    refine ⟨⟨MetaRecord.ofRecord r, ?_, hid⟩, ?_⟩
    · change s.engine.metadata.records[o]? = _
      rw [hrecords, hr, map_some]
    · have hget := hdurable.getRecord happlied.cached o
      rw [hr, getRecord, bind_eq_some_iff] at hget
      obtain ⟨m, -, hvector⟩ := hget
      obtain ⟨v, hv, -⟩ := map_eq_some_iff.mp hvector
      exact isSome_iff_exists.mpr ⟨v, hv⟩
  · intro o ho
    change s.engine.metadata.nextOffset ≤ o at ho
    change s.engine.metadata.records[o]? = none
    rw [hrecords, map_eq_none_iff, eq_none_iff_forall_not_mem]
    intro r hr
    obtain ⟨x, hx, hadds⟩ := exists_adds_of_placed hr
    exact absurd (hdurable.nextOffset x hx _ hadds) (Nat.not_lt.mpr ho)

/-! ## Runs -/

/-- The condition on a step, decided for the given threads. -/
def undisturbed (threads : List T) (s : Sys T) (t : T) : Move → Bool
  | .check _ input => threads.all fun t' =>
    match s.phase t' with
    | .committing u stage => u.id != input.id || !stage.unlisted
    | _ => true
  | .lookup id => threads.all fun t' =>
    match s.phase t' with
    | .committing u stage => u.id != id || !stage.hidden
    | _ => true
  | .commit _ => threads.all fun t' =>
    match s.phase t, s.phase t' with
    | .committing u .removeMeta, .holding _ offset => offset != u.oldOffset
    | _, _ => true
  | _ => true

omit [DecidableEq T] in
/-- The test covers all threads. -/
lemma undisturbed_of_threads {threads : List T} (hall : ∀ t, t ∈ threads) {s : Sys T} {t : T}
    (h : s.undisturbed threads t m = true) : s.Undisturbed t m := by
  cases m with
  | check now input | lookup id =>
    intro t' u stage ht' hid
    have := List.all_eq_true.mp h t' (hall t')
    simpa [ht', hid] using this
  | commit io =>
    intro u ht t' id ht'
    have := List.all_eq_true.mp h t' (hall t')
    simp [ht, ht'] at this
  | _ => trivial

/-- Take steps one after the other, as long as they satisfy the condition. -/
def stepsUndisturbed (E : Env) (threads : List T) : Sys T → List (T × Move) → Option (Sys T)
  | s, [] => some s
  | s, (t, m) :: moves =>
    if s.undisturbed threads t m then
      (s.step E t m).bind fun s' => stepsUndisturbed E threads s' moves
    else none

/-- Steps that pass the test are a run. -/
lemma Run.steps {threads : List T} (hall : ∀ t, t ∈ threads) {moves : List (T × Move)}
    {s₀ s s' : Sys T} (hrun : Run E s₀ s)
    (h : s.stepsUndisturbed E threads moves = some s') : Run E s₀ s' := by
  induction moves generalizing s with
  | nil =>
    cases h
    exact hrun
  | cons move moves ih =>
    obtain ⟨t, m⟩ := move
    rw [stepsUndisturbed] at h
    split at h
    · next hm =>
      obtain ⟨s₁, hs, h⟩ := bind_eq_some_iff.mp h
      exact ih (hrun.step t m (undisturbed_of_threads hall hm) hs) h
    · cases h

/-- An insert of `a`, then threads that are all idle. -/
def sampleSys (e : Engine) : Sys Bool :=
  ofEngine (sampleRun [.insert 5 (sampleInput "a" "old" none)] e).engine

/-- An update of `a`, up to the removal of the old metadata, a lookup of `a` that has read it
before, and then both to their ends. -/
def sampleOverlap : List (Bool × Move) :=
  [(false, .check 6 (sampleInput "a" "new" none)), (false, .lock {}), (false, .commit Io.ok),
    (false, .commit Io.ok), (true, .lookup "a"), (false, .commit Io.ok), (false, .commit Io.ok),
    (true, .readMeta), (false, .commit Io.ok), (true, .readVector), (false, .commit Io.ok),
    (false, .commit Io.ok), (false, .commit Io.ok), (false, .commit Io.ok), (false, .commit Io.ok)]

/-- Both calls returned. -/
def sampleReturned (s : Sys Bool) : Bool :=
  match s.phase false, s.phase true with
  | .updated id _, .found id' _ => id = "a" ∧ id' = "a"
  | _, _ => false

/-- The sample is a state to start from. -/
lemma start_sampleSys (hopen : Engine.open sampleEnv sampleConfig {} = .ok e) :
    (sampleSys e).Start :=
  start_of_rest ((inv_of_reachable .refl hopen
    (reachable_sampleRun [.insert 5 (sampleInput "a" "old" none)]
      (by simp [Request.Indexable]) e)).rest fun _ h => h)

set_option maxRecDepth 10000

/-- An update and a lookup that overlap: the update returns true, the lookup finds `a`. -/
theorem atomic_of_undisturbed_overlap : ∃ (e₀ : Engine) (s : Sys Bool),
    Engine.open sampleEnv sampleConfig {} = .ok e₀ ∧ "a" ∈ (sampleSys e₀).engine.idIndex ∧
    (sampleSys e₀).stepsUndisturbed sampleEnv [false, true] sampleOverlap = some s ∧
    s.phase false = .updated "a" true ∧
    ∃ record, s.phase true = .found "a" (some record) ∧ record.id = "a" ∧
      ∃ s₁, Run sampleEnv (sampleSys e₀) s₁ ∧ Run sampleEnv s₁ s ∧
        s₁.engine.findRecordById "a" = some record := by
  obtain ⟨e₀, hopen, hmem, htest⟩ := exists_opened (P := fun e =>
    "a" ∈ (sampleSys e).engine.idIndex ∧
      ((sampleSys e).stepsUndisturbed sampleEnv [false, true] sampleOverlap).any sampleReturned)
    (by decide +kernel)
  obtain ⟨s, hsteps, hreturned⟩ := (any_eq_true _ _).mp htest
  obtain ⟨hreplies, -⟩ := atomic_of_undisturbed (start_sampleSys hopen)
    (Run.refl.steps (by decide) hsteps)
  refine ⟨e₀, s, hopen, hmem, hsteps, ?_⟩
  rw [sampleReturned] at hreturned
  split at hreturned
  · next id b id' r hupdated hfound =>
    obtain ⟨rfl, rfl⟩ := of_decide_eq_true hreturned
    obtain rfl := (hreplies "a" hmem false).1 b hupdated
    obtain ⟨record, rfl, hid⟩ := (hreplies "a" hmem true).2 r hfound
    exact ⟨hupdated, record, hfound, hid⟩
  · cases hreturned

/-- An update of `a` that is interrupted after the id was removed, by a lookup of `a` and by
another update. -/
def sampleAbsent : List (Bool × Move) :=
  [(false, .check 6 (sampleInput "a" "new" none)), (false, .lock {}), (false, .commit Io.ok),
    (false, .commit Io.ok), (false, .commit Io.ok), (false, .commit Io.ok),
    (false, .commit Io.ok), (false, .commit Io.ok), (true, .lookup "a")]

/-- **A live record appears absent.** While an update of `a` is committed, a lookup of `a` finds
nothing and another update of `a` returns false. -/
theorem absent_during_update : ∃ (e₀ : Engine) (s s' : Sys Bool),
    Engine.open sampleEnv sampleConfig {} = .ok e₀ ∧ (sampleSys e₀).Start ∧
    "a" ∈ (sampleSys e₀).engine.idIndex ∧
    (sampleSys e₀).steps sampleEnv sampleAbsent = some s ∧ s.phase true = .found "a" none ∧
    s.steps sampleEnv [(true, .again), (true, .check 7 (sampleInput "a" "newer" none))] = some s' ∧
    s'.phase true = .updated "a" false := by
  obtain ⟨e₀, hopen, hmem, htest⟩ := exists_opened (P := fun e =>
    "a" ∈ (sampleSys e).engine.idIndex ∧
      ((sampleSys e).steps sampleEnv sampleAbsent).any fun s =>
        (match s.phase true with | .found id r => id = "a" ∧ r = none | _ => false) &&
        (s.steps sampleEnv [(true, .again), (true, .check 7 (sampleInput "a" "newer" none))]).any
          fun s' => match s'.phase true with | .updated id b => id = "a" ∧ b = false | _ => false)
    (by decide +kernel)
  obtain ⟨s, hsteps, htest⟩ := (any_eq_true _ _).mp htest
  rw [Bool.and_eq_true, any_eq_true] at htest
  obtain ⟨hfound, s', hsteps', hupdated⟩ := htest
  refine ⟨e₀, s, s', hopen, start_sampleSys hopen, hmem, hsteps, ?_, hsteps', ?_⟩
  · split at hfound
    · obtain ⟨rfl, rfl⟩ := of_decide_eq_true hfound
      assumption
    · cases hfound
  · split at hupdated
    · obtain ⟨rfl, rfl⟩ := of_decide_eq_true hupdated
      assumption
    · cases hupdated

end Sys

end TurboMemory
