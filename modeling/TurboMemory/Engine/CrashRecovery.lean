import TurboMemory.Engine.Crash
import TurboMemory.Search.Tiered

/-!
# Recovery after a kill

Whatever the threads were doing when the process was killed, the next open shows the records
that the log of completely written operations gives, as long as the id index was complete
whenever a request looked at it. It is not after a batch that stops in its middle because a
payload passes validation and then does not parse.

## Main results

* `open_after_kill` — what an open after a kill shows.
* `open_after_kill_deleted` — a batch that stops in its middle, after which a deleted record
  comes back.
-/

set_option autoImplicit false

namespace TurboMemory

open Framing CriticalSections List

/-! ## The entries of an unfinished call -/

/-- A plan logs in one step. -/
def OneLog (plan : List Act) : Prop :=
  ∀ done rest, plan = done ++ rest → planEntries done = [] ∨ planEntries rest = []

/-- A plan of two parts. -/
lemma planEntries_append (plan plan' : List Act) :
    planEntries (plan ++ plan') = planEntries plan ++ planEntries plan' :=
  flatMap_append

/-- A first action, then the rest. -/
lemma planEntries_cons (a : Act) (plan : List Act) :
    planEntries (a :: plan) = planEntries [a] ++ planEntries plan :=
  planEntries_append [a] plan

/-- A plan with one logging step. -/
lemma oneLog_of_split (before : List Act) (a : Act) (after : List Act)
    (hbefore : planEntries before = []) (hafter : planEntries after = []) :
    OneLog (before ++ a :: after) := by
  intro done rest hplan
  rcases append_eq_append_iff.mp hplan with ⟨more, rfl, hrest⟩ | ⟨more, rfl, hrest⟩
  · cases more with
    | nil =>
      left
      rwa [append_nil]
    | cons b more =>
      right
      obtain ⟨rfl, rfl⟩ : a = b ∧ after = more ++ rest := by simpa using hrest
      rw [planEntries_append, append_eq_nil_iff] at hafter
      exact hafter.2
  · left
    rw [planEntries_append, append_eq_nil_iff] at hbefore
    exact hbefore.1

/-- The plan of a write logs in one step. -/
lemma oneLog_writePlan (records : List (PointOffset × Record)) (entries : List Entry)
    {removed : List Action} (hremoved : planEntries (removed.map .act) = []) :
    OneLog (withAck (writePlan records entries removed)) := by
  have hsplit := oneLog_of_split
    ((records.map fun p => .act (.put p.1 p.2.embedding)) ++ [.act .syncVectors])
    (.act (.log entries))
    (removed.map .act ++ [.act (.applyBatch records), .ack entries]) ?_ ?_
  · rw [withAck_writePlan _ _ hremoved]
    simpa using hsplit
  · simp [planEntries, flatMap_append, flatMap_map]
  · rw [planEntries_append, hremoved]
    rfl

variable {config : StoreConfig} {s : Store} {E : Env}

/-- Every plan of a request logs in one step. -/
lemma oneLog_begin {r : ConceptVocabulary × Request} {s' : Store} {plan : List Act}
    (hbegin : (service E config).begin r s = some (s', plan)) : OneLog plan := by
  simp only [service] at hbegin
  split at hbegin
  · cases hbegin
  next e actions reply hrun =>
  cases hbegin
  cases Engine.begun_of_begin hrun with
  | inserts clock ps | replace now p oldOffset => exact oneLog_writePlan _ _ rfl
  | delete id offset | flush => exact oneLog_of_split [] _ _ rfl rfl

/-- Of two lists one of which is empty, parts in front are a part in front. -/
lemma exists_take_append {α : Type} {l l' : List α} (h : l = [] ∨ l' = []) (m n : ℕ) :
    ∃ k, l.take m ++ l'.take n = (l ++ l').take k := by
  rcases h with rfl | rfl
  · exact ⟨n, by simp⟩
  · exact ⟨m, by simp⟩

section Unfinished

variable {E : Env} {config : StoreConfig}

/-- A step logs a first part of its entries. -/
lemma exists_logged_eq_take (a : Action) (e : Engine) (d : Disk) :
    ∃ n, a.logged E e d = (planEntries [.act a]).take n := by
  cases a with
  | log entries =>
    refine ⟨wholeFrames E.codec.format (entries.map Entry.toOp)
      ((d.wal.getD []).length - e.wal.file.bytes.length), ?_⟩
    simp [planEntries, Action.logged]
  | _ => exact ⟨0, rfl⟩

/-- An action logs a first part of its entries. -/
lemma exists_log_of_exec {a : Act} {s' : Store} {r : Except StorageError Unit}
    (h : (service E config).exec a s = (r, s')) :
    ∃ n, s'.log = s.log ++ (planEntries [a]).take n := by
  cases a with
  | act a =>
    cases h
    obtain ⟨n, hn⟩ := exists_logged_eq_take a s.engine (s.engine.exec E Io.ok a).2.disk
    exact ⟨n, congrArg (s.log ++ ·) hn⟩
  | ack entries =>
    cases h
    exact ⟨0, by simp⟩

/-- So does one that is killed. -/
lemma exists_log_of_image {a : Act} {k : Image} (h : (service E config).Image s (some a) k) :
    ∃ n, k.log = s.log ++ (planEntries [a]).take n := by
  cases a with
  | act a =>
    obtain ⟨n, hn⟩ := exists_logged_eq_take a s.engine k.disk
    exact ⟨n, by rw [h.2.2, hn]⟩
  | ack entries => exact ⟨0, by rw [h.2.2]; simp⟩

/-- What the executed part of a plan logged. -/
lemma exists_log_of_runAll {done rest : List Act} (hone : OneLog (done ++ rest))
    {start store : Store} (h : runAll (service E config).exec done start = (.ok (), store)) :
    ∃ n, store.log = start.log ++ (planEntries done).take n := by
  induction done generalizing start with
  | nil =>
    cases h
    exact ⟨0, by simp⟩
  | cons a done ih =>
    rw [runAll] at h
    split at h
    · next s₁ hexec =>
      obtain ⟨m, hm⟩ := exists_log_of_exec hexec
      have hone' : OneLog (done ++ rest) := by
        intro done' rest' hplan
        refine (hone (a :: done') rest' (by rw [cons_append, hplan]; rfl)).imp_left fun hnil => ?_
        rw [planEntries_cons, append_eq_nil_iff] at hnil
        exact hnil.2
      obtain ⟨n, hn⟩ := ih hone' h
      have hsplit : planEntries [a] = [] ∨ planEntries done = [] := by
        refine (hone [a] (done ++ rest) rfl).imp_right fun hnil => ?_
        rw [planEntries_append, append_eq_nil_iff] at hnil
        exact hnil.1
      obtain ⟨k, hk⟩ := exists_take_append hsplit m n
      exact ⟨k, by rw [hn, hm, append_assoc, hk, ← planEntries_cons]⟩
    · cases h

/-- What a kill leaves of a plan: the entries of the executed part and a first part of the step at
hand. -/
lemma exists_log_of_kill {done rest : List Act} (hone : OneLog (done ++ rest))
    {start store : Store} (hdone : runAll (service E config).exec done start = (.ok (), store))
    {k : Image} (hkill : (service E config).Image store rest.head? k) :
    ∃ n, k.log = start.log ++ (planEntries (done ++ rest)).take n := by
  obtain ⟨m, hm⟩ := exists_log_of_runAll hone hdone
  cases rest with
  | nil =>
    refine ⟨m, ?_⟩
    rw [hkill.2.2, hm, append_nil]
  | cons a rest =>
    obtain ⟨n, hn⟩ := exists_log_of_image hkill
    have hsplit : planEntries done = [] ∨ planEntries [a] = [] := by
      refine (hone done (a :: rest) rfl).imp_right fun hnil => ?_
      rw [planEntries_cons, append_eq_nil_iff] at hnil
      exact hnil.1
    obtain ⟨i, hi⟩ := exists_take_append hsplit m n
    refine ⟨min i (planEntries (done ++ [a])).length, ?_⟩
    rw [hn, hm, append_assoc, hi, append_cons done a rest, planEntries_append (done ++ [a]),
      take_append_of_le_length (min_le_right _ _), planEntries_append done [a],
      ← take_take, take_length]

end Unfinished

/-! ## New stores -/

/-- A configuration with which an empty directory can be opened is valid. -/
lemma StoreConfig.valid_of_openFiles {e : Engine}
    (hcheck : config.check = .ok ()) (hopen : Engine.openFiles config {} = .ok e) :
    config.Valid := by
  obtain ⟨vs, w, hvs, -⟩ := Engine.openFiles_eq_ok_iff.mp hopen
  simp only [VectorStore.open, VectorStore.newWithCapacity] at hvs
  split at hvs
  · cases hvs
  next hpos =>
  split at hvs
  · cases hvs
  next len hlen => exact ⟨hcheck, Nat.pos_of_ne_zero hpos, by rw [hlen]; rfl⟩

section New

variable {E : Env} {config : StoreConfig} {d : Disk} {e : Engine}

/-- Kills while an empty directory is opened leave it empty, or the configuration is valid. -/
lemma Disk.Interrupted.eq_or_valid (h : Disk.Interrupted E config {} d) :
    d = {} ∨ config.Valid := by
  induction h with
  | refl => exact .inl rfl
  | @step d' d'' _ himage ih =>
    rcases ih with rfl | hvalid
    · rw [openWrites] at himage
      split at himage
      · next hcheck hopen => exact .inr (StoreConfig.valid_of_openFiles hcheck hopen)
      · exact .inl (images_nil himage)
    · exact .inr hvalid

/-- The configuration of a store that was opened is valid. -/
lemma Disk.Interrupted.valid (h : Disk.Interrupted E config {} d)
    (hopen : Engine.open E config d = .ok e) : config.Valid := by
  rcases h.eq_or_valid with rfl | hvalid
  · obtain ⟨hcheck, opened, -, hfiles, -⟩ := Engine.open_eq_ok_iff.mp hopen
    exact StoreConfig.valid_of_openFiles hcheck hfiles
  · exact hvalid

/-- An empty directory holds the empty log. -/
lemma diskHolds_empty (dim : ℕ) : DiskHolds E dim {} [] := by
  refine ⟨[], [], [], rfl, ⟨⟨?_, fun _ => ⟨rfl, rfl⟩, ?_⟩, ?_, ?_, ordered_nil, closed_nil⟩,
    .absent rfl, .creating none ?_ rfl rfl rfl⟩
  · intro o
    simp
  · intro last hlast
    cases hlast
  · simp
  · simp
  · simp

/-- A new store is at rest, with an empty log. -/
lemma rest_new (strict : Prop) (hcreated : Disk.Interrupted E config {} d)
    (hopen : Engine.open E config d = .ok e) : Rest E config strict ⟨e, [], []⟩ := by
  have hvalid := hcreated.valid hopen
  obtain ⟨hconfig, flushed, pending, stale, hlog, hdurable, happlied⟩ :=
    ((diskHolds_empty config.dimension).interrupted hvalid hcreated).open hvalid
      (fun _ => named_nil) hopen
  exact ⟨hconfig, by simp [AckedIn], flushed, pending, stale, hlog, hdurable, happlied⟩

end New

/-! ## What an open shows -/

/-- The live records of a store are the given ones: lookups by id find them, and the metadata has no
others. -/
def Engine.Shows (e : Engine) (records : Std.ExtTreeMap String Record) : Prop :=
  (∀ id : String, e.findRecordById id = records[id]?) ∧
  ∀ (o : PointOffset) (m : MetaRecord), e.metadata.get o = some m →
    ∃ r, e.getRecord o = some r ∧ records[r.id]? = some r

/-- A store at rest shows the records of its log. -/
lemma Rest.shows (h : Rest E config True s) : s.engine.Shows (applyLog s.log) := by
  obtain ⟨-, -, flushed, pending, stale, hlog, hdurable, happlied⟩ := h
  rw [hlog]
  refine ⟨hdurable.findRecordById happlied, ?_⟩
  intro o m hm
  rw [MetadataStore.get, happlied.cached.records, Option.map_eq_some_iff] at hm
  obtain ⟨r, hr, rfl⟩ := hm
  refine ⟨r, by rw [hdurable.getRecord happlied.cached, hr], ?_⟩
  exact (getElem?_applyLog_iff (happlied.named trivial).1 hdurable.logged.ordered _ _).mpr
    ⟨rfl, o, hr⟩

/-- A new store stays at rest while no call is being executed, in every run whose batches can be
indexed. -/
lemma inv_of_reachable {T : Type} [DecidableEq T] {d : Disk}
    {e : Engine} {s : State T Store (ConceptVocabulary × Request) Act}
    (hcreated : Disk.Interrupted E config {} d) (hfirst : Engine.open E config d = .ok e)
    (hrun : Reachable (service E config) (fun r => r.2.Indexable E) ⟨e, [], []⟩ s) :
    Inv (service E config) (fun r => r.2.Indexable E) (Rest E config True) (Left E config True)
      s.store s.pc :=
  hrun.inv (fun _ _ _ _ hr hs hbegin => safe_begin (fun _ => hr) hs hbegin)
    (fun _ _ hs hk => hs.image hk) (fun _ _ hk hs => hk.reopen (hcreated.valid hfirst) hs)
    (rest_new True hcreated hfirst)

/-- **Crash recovery.** A store is created, any number of threads call it, and the process is
killed, opened again and killed any number of times. If every payload of a batch but the last
parses, the next open shows the log of all operations whose frames were written completely, applied
in order. The log has the operations of every call that returned, and a first part of a call that
was being executed. **Proof sketch.** `Rest` and `Left` are invariants of all runs (`safe_begin`):
what a kill leaves holds the log, and opening it gives a store at rest (`Left.reopen`). The
unfinished call logs in one step only. -/
theorem open_after_kill {T : Type} [DecidableEq T] {E : Env} {config : StoreConfig}
    {d₀ d : Disk} {e₀ e : Engine} {s : State T Store (ConceptVocabulary × Request) Act} {k : Image}
    (hcreated : Disk.Interrupted E config {} d₀) (hfirst : Engine.open E config d₀ = .ok e₀)
    (hrun : Reachable (service E config) (fun r => r.2.Indexable E) ⟨e₀, [], []⟩ s)
    (hkill : Crash (service E config) s k) (hinterrupted : k.disk.Interrupted E config d)
    (hopen : Engine.open E config d = .ok e) :
    e₀.Shows ∅ ∧ e.Shows (applyLog k.log) ∧ (∀ entries ∈ k.acked, entries <:+: k.log) ∧
    ∀ t x start plan rest, s.pc t = .running x start plan rest →
      ∃ n, k.log = start.log ++ (planEntries plan).take n := by
  have hvalid := hcreated.valid hfirst
  have hinv := inv_of_reachable hcreated hfirst hrun
  have hleft := hinv.image (fun s k hs hk => hs.image hk) hkill
  refine ⟨(rest_new True hcreated hfirst).shows, ?_, hleft.2.2, ?_⟩
  · exact (hleft.reopen (s := ⟨e, k.log, k.acked⟩) hvalid ⟨rfl, rfl, d, hinterrupted, hopen⟩).shows
  · intro t x start plan rest hpc
    obtain ⟨-, ⟨r, s₀, -, -, hbegin⟩, done, rfl, hdone⟩ := hinv.running t x start plan rest hpc
    exact exists_log_of_kill (oneLog_begin hbegin) hdone (hinv.killed hkill hpc)

/-! ## Runs -/

/-- An environment for small inputs: the log's own format, float arithmetic for vectors whose only
component is `1.0`, and JSON parsers for `1e999`, valid JSON but no number that fits. -/
def sampleEnv : Env where
  codec := bincode
  parseValue s :=
    if s = "1e999" then .error "number out of range at line 1 column 5" else .ok .null
  ignoredAny _ := .ok ()
  float := ⟨fun _ y => y, fun x _ => x, fun l => l.headD F32.zero, fun x => x⟩
  mergeConcepts _ concepts _ := concepts
  arith := ⟨fun x => x, fun x => x, fun _ s => s, fun _ => []⟩
  toSnapshotBytes _ := []
  fromSnapshotBytes _ := none
  iterate := (·.toList)
  iterate_perm _ := .rfl

/-- A store of vectors with one component. -/
def sampleConfig : StoreConfig := ⟨1, 0, false, 1000, .sign, .sign⟩

/-- A record with the vector `[1.0]`. -/
def sampleInput (id text : String) (payload : Option String) : WriteInput where
  id := id
  text := text
  embedding := [⟨0x3f800000⟩]
  importance := ⟨0x3f800000⟩
  concepts := []
  payload := payload
  scope := none
  sourceRole := none

/-- A batch of records with the vector `[1.0]`. -/
def sampleBatch (records : List (String × Option String)) : BatchInput where
  ids := records.map Prod.fst
  texts := records.map fun _ => ""
  embeddings := records.map fun _ => [⟨0x3f800000⟩]
  importances := records.map fun _ => ⟨0x3f800000⟩
  concepts := records.map fun _ => []
  payloads := records.map Prod.snd
  scopes := []
  sourceRoles := []

/-- The calls of one thread on a new store. -/
def sampleRun (rs : List Request) (e : Engine) : Store :=
  (rs.map fun r => (({} : ConceptVocabulary), r)).foldl (service sampleEnv sampleConfig).call
    ⟨e, [], []⟩

/-- Requests of one thread. -/
lemma reachable_sampleRun {Allowed : ConceptVocabulary × Request → Prop} (rs : List Request)
    (hrs : ∀ r ∈ rs, Allowed ({}, r)) (e : Engine) :
    Reachable (service sampleEnv sampleConfig) Allowed ⟨e, [], []⟩
      ⟨sampleRun rs e, fun _ : Unit => .idle⟩ := by
  refine Reachable.init.calls () _ ?_
  intro r hr
  obtain ⟨r', hr', rfl⟩ := mem_map.mp hr
  exact hrs r' hr'

/-- A call that stopped before one of its steps. -/
structure Stopped extends Store where
  start : Store
  plan : List Act
  next : Act
  rest : List Act

/-- The calls of one thread on a new store, the last one stopped after some of its steps. -/
def sampleStopped (rs : List Request) (r : Request) (n : ℕ) (e : Engine) : Option Stopped :=
  match (service sampleEnv sampleConfig).begin ({}, r) (sampleRun rs e) with
  | none => none
  | some (start, plan) =>
    match runAll (service sampleEnv sampleConfig).exec (plan.take n) start, plan.drop n with
    | (.ok _, s), a :: rest => some ⟨s, start, plan, a, rest⟩
    | _, _ => none

/-- It is one of the things that can happen. -/
lemma reachable_sampleStopped {Allowed : ConceptVocabulary × Request → Prop} {rs : List Request}
    {r : Request} {n : ℕ} {e : Engine} {s : Stopped} (hrs : ∀ r ∈ rs, Allowed ({}, r))
    (hr : Allowed ({}, r)) (hs : sampleStopped rs r n e = some s) :
    Reachable (service sampleEnv sampleConfig) Allowed ⟨e, [], []⟩
      ⟨s.toStore, only () (.running r.exclusive s.start s.plan (s.next :: s.rest))⟩ := by
  rw [sampleStopped] at hs
  split at hs
  · cases hs
  next start plan hbegin =>
  split at hs
  · next s' a rest hdone hrest =>
    cases hs
    have hrun := (reachable_sampleRun rs hrs e).begin () hr hbegin
    refine Reachable.execute (plan.take n) ?_ hdone
    rw [← hrest, take_append_drop]
    exact hrun
  · cases hs

/-- What a kill in the middle of its next append to the log leaves. -/
def Stopped.cut (s : Stopped) (n : ℕ) : Option Image :=
  match s.next with
  | .ack _ => none
  | .act a =>
    match a.writes sampleEnv s.engine with
    | [.walAppend bytes] =>
      let d := s.engine.disk.write (.walAppend (bytes.take n))
      some ⟨d, s.log ++ a.logged sampleEnv s.engine d, s.acked⟩
    | _ => none

/-- So is that kill. -/
lemma Stopped.crash_cut {s : Stopped} {n : ℕ} {k : Image} {x : Bool} (h : s.cut n = some k) :
    Crash (service sampleEnv sampleConfig)
      ⟨s.toStore, only () (.running x s.start s.plan (s.next :: s.rest))⟩ k := by
  rw [cut] at h
  refine crash_only () ?_
  split at h
  · cases h
  next a hnext =>
  split at h
  · next bytes hwrites =>
    cases h
    rw [hnext]
    exact ⟨rfl, hwrites ▸ .here (.part bytes n), rfl⟩
  · cases h

/-- A kill while nothing is being executed. -/
lemma crash_idle {T : Type} (s : Store) :
    Crash (service E config) ⟨s, fun _ : T => .idle⟩ ⟨s.engine.disk, s.log, s.acked⟩ :=
  .rest (fun _ h => h) ⟨rfl, rfl, rfl⟩

/-- A result that passes a test. -/
def passes {ε α : Type} (t : α → Bool) : Except ε α → Bool
  | .ok a => t a
  | .error _ => false

/-- A test that passes has a result. -/
lemma exists_ok_of_passes {ε α : Type} {t : α → Bool} {x : Except ε α}
    (h : passes t x = true) : ∃ a, x = .ok a ∧ t a = true := by
  cases x with
  | error e => cases h
  | ok a => exact ⟨a, rfl, h⟩

/-- A new store that has a property. -/
lemma exists_opened {P : Engine → Prop} [DecidablePred P]
    (h : passes (fun e₀ => decide (P e₀)) (Engine.open sampleEnv sampleConfig {}) = true) :
    ∃ e₀, Engine.open sampleEnv sampleConfig {} = .ok e₀ ∧ P e₀ := by
  obtain ⟨e₀, hfirst, h⟩ := exists_ok_of_passes h
  exact ⟨e₀, hfirst, of_decide_eq_true h⟩

/-- A run that is killed and opened again, where the killed and the new store have a property. -/
lemma exists_reopened (rs : List Request) (P : Store → Engine → Prop) [∀ s, DecidablePred (P s)]
    (h : passes (fun e₀ => passes (fun e => decide (P (sampleRun rs e₀) e))
        (Engine.open sampleEnv sampleConfig (sampleRun rs e₀).engine.disk))
      (Engine.open sampleEnv sampleConfig {}) = true) :
    ∃ e₀ e, Engine.open sampleEnv sampleConfig {} = .ok e₀ ∧
      Engine.open sampleEnv sampleConfig (sampleRun rs e₀).engine.disk = .ok e ∧
      P (sampleRun rs e₀) e := by
  obtain ⟨e₀, hfirst, h⟩ := exists_ok_of_passes h
  obtain ⟨e, hopen, h⟩ := exists_ok_of_passes h
  exact ⟨e₀, e, hfirst, hopen, of_decide_eq_true h⟩

set_option maxRecDepth 10000

/-- An insert and an update returned, and a batch of `b` and `c` is killed while it appends to the
log: the frame of `b` is complete, the one of `c` is not. -/
theorem open_after_kill_update : ∃ (e₀ e : Engine) (s : Stopped) (k : Image),
    Engine.open sampleEnv sampleConfig {} = .ok e₀ ∧
    sampleStopped [.insert 5 (sampleInput "a" "old" none), .update 6 (sampleInput "a" "new" none)]
      (.insertBatch (fun _ => 7) (sampleBatch [("b", none), ("c", none)])) 3 e₀ = some s ∧
    s.cut 200 = some k ∧ Engine.open sampleEnv sampleConfig k.disk = .ok e ∧
    e.Shows (applyLog k.log) ∧ (∃ n, k.log = s.start.log ++ (planEntries s.plan).take n) ∧
    (applyLog k.log)["a"]?.map Record.text = some "new" ∧ "b" ∈ applyLog k.log ∧
    "c" ∉ applyLog k.log := by
  obtain ⟨e₀, hfirst, htest⟩ := exists_opened (P := fun e₀ =>
    (sampleStopped [.insert 5 (sampleInput "a" "old" none), .update 6 (sampleInput "a" "new" none)]
      (.insertBatch (fun _ => 7) (sampleBatch [("b", none), ("c", none)])) 3 e₀).any fun s =>
        (s.cut 200).any fun k => (applyLog k.log)["a"]?.map Record.text = some "new" ∧
          "b" ∈ applyLog k.log ∧ "c" ∉ applyLog k.log ∧
          passes (fun _ => true) (Engine.open sampleEnv sampleConfig k.disk)) (by decide +kernel)
  obtain ⟨s, hs, htest⟩ := (Option.any_eq_true _ _).mp htest
  obtain ⟨k, hk, htest⟩ := (Option.any_eq_true _ _).mp htest
  obtain ⟨ha, hb, hc, hopens⟩ := of_decide_eq_true htest
  obtain ⟨e, hopen, -⟩ := exists_ok_of_passes hopens
  have hpayloads : ∀ x ∈ (sampleBatch [("b", none), ("c", none)]).inputs, x.payload = none := by
    decide +kernel
  have hindexable : (Request.insertBatch (fun _ => 7)
      (sampleBatch [("b", none), ("c", none)])).Indexable sampleEnv := by
    intro x hx payload hpayload
    rw [hpayloads x (mem_of_mem_dropLast hx)] at hpayload
    cases hpayload
  have hkilled := open_after_kill .refl hfirst
    (reachable_sampleStopped (by simp [Request.Indexable]) hindexable hs)
    (Stopped.crash_cut hk) .refl hopen
  have hlog := hkilled.2.2.2 () false s.start s.plan (s.next :: s.rest) rfl
  exact ⟨e₀, e, s, k, hfirst, hs, hk, hopen, hkilled.2.1, hlog, ha, hb, hc⟩

/-- **A deleted record comes back.** A batch of `a` and `b` fails when the payload of `a` does not
parse: `b` is live but not in the id index. It is inserted again and deleted; after a kill its first
version is live again. -/
theorem open_after_kill_deleted : ∃ (e₀ e : Engine) (s : Store),
    Engine.open sampleEnv sampleConfig {} = .ok e₀ ∧
    Reachable (service sampleEnv sampleConfig) (fun _ => True) ⟨e₀, [], []⟩
      ⟨s, fun _ : Unit => .idle⟩ ∧ Crash (service sampleEnv sampleConfig) ⟨s, fun _ : Unit => .idle⟩
      ⟨s.engine.disk, s.log, s.acked⟩ ∧ Engine.open sampleEnv sampleConfig s.engine.disk = .ok e ∧
    [.delete 2 "b"] ∈ s.acked ∧ (applyLog s.log)["b"]? = none ∧
    (e.findRecordById "b").map Record.insertSeq = some 2 := by
  obtain ⟨e₀, e, hfirst, hopen, htest⟩ := exists_reopened
    [.insertBatch (fun _ => 5) (sampleBatch [("a", some "1e999"), ("b", none)]),
      .insert 6 (sampleInput "b" "" none), .deleteById "b"]
    (fun s e => [.delete 2 "b"] ∈ s.acked ∧ (applyLog s.log)["b"]? = none ∧
      (e.findRecordById "b").map Record.insertSeq = some 2) (by decide +kernel)
  exact ⟨e₀, e, _, hfirst, reachable_sampleRun _ (fun _ _ => trivial) e₀, crash_idle _, hopen,
    htest⟩

end TurboMemory
