import TurboMemory.Engine.Commit
import TurboMemory.Engine.Reopen

/-!
# Crash recovery

Any number of threads call the store, the process is killed at any moment and opened again.
The store is a service in the sense of `CriticalSections`; its plans are safe (`safe_begin`), so
what every kill leaves holds the log of all operations whose frames were written completely.

A request carries the vocabulary it is validated with, which it reads before it has its locks.
The last action of every plan records that the call returned.
-/

set_option autoImplicit false

namespace TurboMemory

open Framing CriticalSections List MetadataStore Engine

/-! ## The service -/

/-- An open store, the log of all operations logged so far, and the operations of the calls that
have returned. -/
structure Store where
  engine : Engine
  log : List Entry
  acked : List (List Entry)

/-- What a kill leaves. -/
structure Image where
  disk : Disk
  log : List Entry
  acked : List (List Entry)

/-- The steps of a call, and its return. -/
inductive Act
  | act (a : Action)
  | ack (entries : List Entry)

/-- The entries a plan logs. -/
def planEntries (plan : List Act) : List Entry :=
  plan.flatMap fun
    | .act (.log entries) => entries
    | _ => []

/-- A plan, with the return of its call. -/
def withAck (plan : List Action) : List Act :=
  plan.map .act ++ [.ack (planEntries (plan.map .act))]

/-- Only a flush takes the barrier exclusively. -/
def Request.exclusive : Request → Bool
  | .flush => true
  | _ => false

/-- The store as a service. A request comes with the vocabulary it is validated with. -/
def service (E : Env) (config : StoreConfig) :
    Service Store (ConceptVocabulary × Request) Act StorageError Image where
  begin r s :=
    match s.engine.begin E r.1 r.2 with
    | .done _ => none
    | .run e plan _ => some ({ s with engine := e }, withAck plan)
  exec
    | .act a, s =>
      match s.engine.exec E Io.ok a with
      | (r, e) => (r, ⟨e, s.log ++ a.logged E s.engine e.disk, s.acked⟩)
    | .ack entries, s => (.ok (), { s with acked := s.acked ++ [entries] })
  exclusive r := r.2.exclusive
  Image s a k := k.acked = s.acked ∧ match a with
    | some (.act a) => s.engine.disk.Images (a.writes E s.engine) k.disk ∧
      k.log = s.log ++ a.logged E s.engine k.disk
    | _ => k.disk = s.engine.disk ∧ k.log = s.log
  reopen k s := s.log = k.log ∧ s.acked = k.acked ∧
    ∃ d, k.disk.Interrupted E config d ∧ Engine.open E config d = .ok s.engine

/-! ## Invariants -/

/-- Every operation of a call that returned is in the log. -/
def AckedIn (acked : List (List Entry)) (log : List Entry) : Prop :=
  ∀ entries ∈ acked, entries <:+: log

/-- The log grows. -/
lemma AckedIn.append {acked : List (List Entry)} {log : List Entry} (h : AckedIn acked log)
    (more : List Entry) : AckedIn acked (log ++ more) :=
  fun entries hentries => (h entries hentries).trans (prefix_append _ _).isInfix

/-- A store at rest. -/
def Rest (E : Env) (config : StoreConfig) (strict : Prop) (s : Store) : Prop :=
  s.engine.config = config ∧ AckedIn s.acked s.log ∧ ∃ flushed pending stale,
    s.log = flushed ++ pending ∧ Durable E s.engine flushed pending stale ∧
    Applied strict s.engine flushed pending

/-- What a kill leaves. -/
def Left (E : Env) (config : StoreConfig) (strict : Prop) (k : Image) : Prop :=
  DiskHolds E config.dimension k.disk k.log ∧ (strict → Named k.log) ∧ AckedIn k.acked k.log

/-- Acts that are safe for a store at rest and what a kill leaves of it. -/
abbrev SafeActs (E : Env) (config : StoreConfig) (strict : Prop) :
    (Store → Prop) → List Act → Store → Prop :=
  Safe (service E config) (Rest E config strict) (Left E config strict)

variable {E : Env} {config : StoreConfig} {strict : Prop} {s : Store}

/-- A kill at rest. -/
lemma Rest.image (h : Rest E config strict s) {k : Image}
    (hk : (service E config).Image s none k) : Left E config strict k := by
  obtain ⟨rfl, hacked, flushed, pending, stale, hlog, hdurable, happlied⟩ := h
  obtain ⟨hk₁, hk₂, hk₃⟩ := hk
  refine ⟨?_, ?_, ?_⟩
  · rw [hk₂, hk₃, hlog]
    exact hdurable.disk.holds
  · intro hs
    rw [hk₃, hlog]
    exact (happlied.named hs).1
  · rw [hk₁, hk₃]
    exact hacked

/-- A new process at rest. -/
lemma Left.reopen (hconfig : config.Valid) {k : Image} (h : Left E config strict k)
    (hs : (service E config).reopen k s) : Rest E config strict s := by
  obtain ⟨hholds, hnamed, hacked⟩ := h
  obtain ⟨hlog, hack, d, hint, hopen⟩ := hs
  obtain ⟨hcfg, flushed, pending, stale, heq, hdurable, happlied⟩ :=
    (hholds.interrupted hconfig hint).open hconfig hnamed hopen
  exact ⟨hcfg, by rw [hlog, hack]; exact hacked, flushed, pending, stale, hlog.trans heq, hdurable,
    happlied⟩

/-! ## One step of a plan -/

variable {R : Store → Prop} {a : Action} {e : Engine}

/-- A step followed by a safe plan. -/
lemma safe_act {rest : List Act} (himage : ∀ d, s.engine.disk.Images (a.writes E s.engine) d →
      Left E config strict ⟨d, s.log ++ a.logged E s.engine d, s.acked⟩)
    (hok : ∀ e, s.engine.exec E Io.ok a = (.ok (), e) → SafeActs E config strict R rest
        ⟨e, s.log ++ a.logged E s.engine e.disk, s.acked⟩)
    (herr : ∀ err e, s.engine.exec E Io.ok a = (.error err, e) →
      Rest E config strict ⟨e, s.log ++ a.logged E s.engine e.disk, s.acked⟩) :
    SafeActs E config strict R (.act a :: rest) s := by
  refine ⟨?_, ?_, ?_⟩
  · rintro ⟨d, log, acked⟩ ⟨hacked, hd, hlog⟩
    obtain rfl : acked = s.acked := hacked
    obtain rfl : log = s.log ++ a.logged E s.engine d := hlog
    exact himage d hd
  · intro s' hs'
    simp only [service] at hs'
    rcases hexec : s.engine.exec E Io.ok a with ⟨r, e⟩
    rw [hexec] at hs'
    cases hs'
    exact hok e hexec
  · intro err s' hs'
    simp only [service] at hs'
    rcases hexec : s.engine.exec E Io.ok a with ⟨r, e⟩
    rw [hexec] at hs'
    cases hs'
    exact herr err e hexec

/-- A step that logs nothing. -/
lemma safe_write (hlogged : ∀ d, a.logged E s.engine d = [])
    (himage : ∀ d, s.engine.disk.Images (a.writes E s.engine) d →
      Left E config strict ⟨d, s.log, s.acked⟩)
    (hok : ∀ e, s.engine.exec E Io.ok a = (.ok (), e) → R ⟨e, s.log, s.acked⟩)
    (herr : ∀ err e, s.engine.exec E Io.ok a = (.error err, e) →
      Rest E config strict ⟨e, s.log, s.acked⟩) : SafeActs E config strict R [.act a] s := by
  refine safe_act ?_ ?_ ?_
  · intro d hd
    rw [hlogged, append_nil]
    exact himage d hd
  · intro e hexec
    rw [hlogged, append_nil]
    exact hok e hexec
  · intro err e hexec
    rw [hlogged, append_nil]
    exact herr err e hexec

/-- A step that writes no file leaves the files as they are. -/
lemma Left.quiet (hleft : Left E config strict ⟨s.engine.disk, s.log, s.acked⟩)
    (hwrites : a.writes E s.engine = []) (d : Disk)
    (himage : s.engine.disk.Images (a.writes E s.engine) d) :
    Left E config strict ⟨d, s.log, s.acked⟩ := by
  rw [hwrites] at himage
  rwa [images_nil himage]

/-- A step that logs nothing and cannot fail. -/
lemma safe_ok (hexec : s.engine.exec E Io.ok a = (.ok (), e))
    (hlogged : ∀ d, a.logged E s.engine d = [])
    (himage : ∀ d, s.engine.disk.Images (a.writes E s.engine) d →
      Left E config strict ⟨d, s.log, s.acked⟩)
    (hR : R ⟨e, s.log, s.acked⟩) : SafeActs E config strict R [.act a] s := by
  refine safe_write hlogged himage ?_ ?_
  · intro e' hexec'
    cases hexec.symm.trans hexec'
    exact hR
  · intro err e' hexec'
    cases (Prod.mk.inj (hexec.symm.trans hexec')).1

variable {entries : List Entry}

/-- The return of a call whose entries are in the log. -/
lemma safe_ack (h : Rest E config strict s) (hentries : entries <:+: s.log) :
    SafeActs E config strict (Rest E config strict) [.ack entries] s := by
  refine ⟨?_, ?_, ?_⟩
  · rintro k hk
    exact h.image hk
  · rintro s' hs'
    cases hs'
    obtain ⟨hcfg, hacked, hrest⟩ := h
    refine ⟨hcfg, ?_, hrest⟩
    intro es hes
    rcases mem_append.mp hes with hes | hes
    · exact hacked es hes
    · obtain rfl := mem_singleton.mp hes
      exact hentries
  · intro err s' hs'
    cases (Prod.mk.inj hs').1

variable {flushed pending : List Entry} {stale : List WalOp} {d : Disk}

/-- The files of a store do not depend on its metadata cache and its indexes. -/
lemma Durable.congr {e' : Engine} (h : Durable E e flushed pending stale) {m : MetadataStore}
    (hsame : SameFiles { e with metadata := m } e')
    (hfiles : m.db = e.metadata.db ∧ m.nextOffset = e.metadata.nextOffset ∧
      m.nextSeq = e.metadata.nextSeq) : Durable E e' flushed pending stale := by
  obtain ⟨hconfig, hmetadata, hvectors, hwal, -⟩ := hsame
  obtain rfl : e'.metadata = m := hmetadata
  obtain ⟨hdb, hoffset, hseq⟩ := hfiles
  cases e
  cases e'
  dsimp only at hconfig hvectors hwal
  subst hconfig hvectors hwal
  exact { h with
    logged := hdb ▸ h.logged
    nextOffset := hoffset ▸ h.nextOffset
    nextSeq := hseq ▸ h.nextSeq
    last_lt := by rw [hdb, hseq]; exact h.last_lt }

/-! ## Storing the vectors of a write -/

/-- A store in the middle of a call: nothing logged yet, its log in the given parts. -/
structure Busy (E : Env) (config : StoreConfig) (strict : Prop) (flushed pending : List Entry)
    (stale : List WalOp) (s : Store) : Prop where
  config : s.engine.config = config
  acked : AckedIn s.acked s.log
  log : s.log = flushed ++ pending
  durable : Durable E s.engine flushed pending stale
  applied : Applied strict s.engine flushed pending

section

variable (h : Busy E config strict flushed pending stale s)
include h

/-- A plan that came to its end. -/
lemma Busy.rest : Rest E config strict s :=
  ⟨h.config, h.acked, flushed, pending, stale, h.log, h.durable, h.applied⟩

/-- An image of a busy store that holds its log and some more entries is good. -/
lemma Busy.left
    {more : List Entry} (hholds : DiskHolds E config.dimension d (flushed ++ pending ++ more))
    (hnamed : strict → Named (flushed ++ pending ++ more)) :
    Left E config strict ⟨d, s.log ++ more, s.acked⟩ := by
  refine ⟨?_, ?_, h.acked.append more⟩
  · rw [h.log]
    exact hholds
  · intro hs
    rw [h.log]
    exact hnamed hs

/-- An image of a busy store that holds its log is good. -/
lemma Busy.left_nil (hholds : DiskHolds E config.dimension d (flushed ++ pending)) :
    Left E config strict ⟨d, s.log, s.acked⟩ := by
  refine ⟨?_, ?_, h.acked⟩
  · rw [h.log]
    exact hholds
  · intro hs
    rw [h.log]
    exact (h.applied.named hs).1

/-- Files that satisfy the invariant. -/
lemma Busy.left_inv (hinv : DiskInv E s.engine.config.dimension d flushed pending stale) :
    Left E config strict ⟨d, s.log, s.acked⟩ :=
  h.left_nil (h.config ▸ hinv.holds)

end

/-- Records that a store can write next: at new offsets, in order, within the counters. -/
structure Writable (e : Engine) (flushed pending : List Entry)
    (records : List (PointOffset × Record)) : Prop where
  pairwise : records.Pairwise fun p q => p.1 < q.1
  fresh : ∀ p ∈ records, ∀ x ∈ flushed ++ pending, ∀ q, x.adds = some q → q.1 < p.1
  nextOffset : ∀ p ∈ records, p.1 < e.metadata.nextOffset
  nextSeq : ∀ p ∈ records, p.2.insertSeq < e.metadata.nextSeq
  last_lt : ∀ p ∈ records, e.metadata.db.last < p.2.insertSeq

/-- The vectors of the first records are stored. -/
def Putting (E : Env) (config : StoreConfig) (strict : Prop) (flushed pending : List Entry)
    (stale : List WalOp) (e₀ : Engine) (done : List (PointOffset × Record)) (s : Store) : Prop :=
  Busy E config strict flushed pending stale s ∧
  s.engine = { e₀ with vectors := s.engine.vectors } ∧ ∀ p ∈ done, Held s.engine p.1 p.2.embedding

variable {records : List (PointOffset × Record)} {e₀ : Engine}

/-- **Storing the vectors of a write** is safe. -/
lemma safe_puts (hrecords : Writable e₀ flushed pending records)
    (hs : Putting E config strict flushed pending stale e₀ [] s) : SafeActs E config strict
      (Putting E config strict flushed pending stale e₀ records)
      (records.map fun p => .act (.put p.1 p.2.embedding)) s := by
  refine Safe.map (R := fun done _ => Putting E config strict flushed pending stale e₀ done)
    records ?_ hs
  intro done p todo s hitems hs
  obtain ⟨hbusy, heq, hheld⟩ := hs
  have hp : p ∈ records := by simp [← hitems]
  have hfresh : Unlogged (flushed ++ pending) p.1 :=
    fun x hx q hq => (hrecords.fresh p hp x hx q hq).ne
  refine safe_write (fun _ => rfl) ?_ ?_ ?_
  · intro d himage
    exact hbusy.left_inv (hbusy.durable.put_image hfresh himage)
  · intro e hexec
    obtain ⟨hdurable, hput, hkeep, he⟩ := hbusy.durable.put_ok hfresh hexec
    have happlied : Applied strict e flushed pending := by
      rw [he]
      exact { hbusy.applied with }
    refine ⟨⟨by rw [he]; exact hbusy.config, hbusy.acked, hbusy.log, hdurable, happlied⟩, ?_, ?_⟩
    · show e = { e₀ with vectors := e.vectors }
      rw [he, heq]
    · intro q hq
      rcases mem_append.mp hq with hq | hq
      · refine hkeep q.1 _ ?_ (hheld q hq)
        have hpair := hrecords.pairwise
        rw [← hitems] at hpair
        exact ((pairwise_append.mp hpair).2.2 q hq p (by simp)).ne
      · obtain rfl := mem_singleton.mp hq
        exact hput
  · intro err e hexec
    obtain rfl := hbusy.durable.put_error hexec
    exact hbusy.rest

/-- A kill between two steps. -/
lemma Busy.left_self (h : Busy E config strict flushed pending stale s) :
    Left E config strict ⟨s.engine.disk, s.log, s.acked⟩ :=
  h.rest.image ⟨rfl, rfl, rfl⟩

/-- Syncing the vectors just stored. -/
lemma safe_syncVectors (hs : Putting E config strict flushed pending stale e₀ records s) :
    SafeActs E config strict
      (Putting E config strict flushed pending stale e₀ records) [.act .syncVectors] s := by
  refine safe_write (fun _ => rfl) (hs.1.left_self.quiet rfl) ?_ ?_
  · intro e hexec
    obtain ⟨-, rfl⟩ := Prod.mk.inj hexec
    exact hs
  · intro err e hexec
    obtain ⟨-, rfl⟩ := Prod.mk.inj hexec
    exact hs.1.rest

/-! ## Logging a write -/

/-- The entries of the write are logged, and memory is as it was before. -/
structure Committing (E : Env) (config : StoreConfig) (strict : Prop)
    (flushed pending : List Entry) (stale : List WalOp) (e₀ : Engine) (entries : List Entry)
    (s : Store) : Prop where
  config : s.engine.config = config
  acked : AckedIn s.acked s.log
  log : s.log = flushed ++ pending ++ entries
  durable : Durable E s.engine flushed (pending ++ entries) stale
  named : strict → Named (flushed ++ pending ++ entries)
  engine : s.engine = { e₀ with vectors := s.engine.vectors, wal := s.engine.wal }

/-- A kill after the log was written. -/
lemma Committing.left (h : Committing E config strict flushed pending stale e₀ entries s) :
    Left E config strict ⟨s.engine.disk, s.log, s.acked⟩ := by
  refine ⟨?_, ?_, h.acked⟩
  · rw [h.log, append_assoc, ← h.config]
    exact h.durable.disk.holds
  · intro hs
    rw [h.log]
    exact h.named hs

/-- **Logging a write** is safe: some first entries are in the log. -/
lemma safe_log (hbusy : Busy E config strict flushed pending stale s)
    (heq : s.engine = { e₀ with vectors := s.engine.vectors })
    (hloggable : Loggable s.engine flushed pending entries)
    (hnamed : strict → Named (flushed ++ pending ++ entries)) :
    SafeActs E config strict
      (Committing E config strict flushed pending stale e₀ entries) [.act (.log entries)] s := by
  refine safe_act ?_ ?_ ?_
  · intro d himage
    have hholds := (hbusy.durable.log_image hloggable himage).holds
    rw [hbusy.config, ← append_assoc] at hholds
    refine hbusy.left hholds fun hs => ?_
    -- A prefix of a valid log is valid.
    obtain ⟨n, hn⟩ : ∃ n, (Action.log entries).logged E s.engine d = entries.take n := ⟨_, rfl⟩
    rw [hn]
    have := hnamed hs
    rw [← take_append_drop n entries, ← append_assoc] at this
    exact this.left
  · intro e hexec
    obtain ⟨hdurable, he, hlogged⟩ := hbusy.durable.log_ok hloggable hexec
    rw [hlogged]
    refine ⟨by rw [he]; exact hbusy.config, hbusy.acked.append entries, by rw [hbusy.log],
      hdurable, hnamed, ?_⟩
    show e = { e₀ with vectors := e.vectors, wal := e.wal }
    rw [he, heq]
  · intro err e hexec
    obtain rfl := log_error hexec
    rw [Action.logged_self, append_nil]
    exact hbusy.rest

/-! ## Applying a write -/

/-- The write is applied. -/
def Done (E : Env) (config : StoreConfig) (strict : Prop) (log : List Entry) (s : Store) : Prop :=
  Rest E config strict s ∧ s.log = log

/-- The call of a write that is applied returns. -/
lemma Done.ack {log entries : List Entry} (h : Done E config strict (log ++ entries) s) :
    SafeActs E config strict (Rest E config strict) [.ack entries] s :=
  safe_ack h.1 (h.2 ▸ (suffix_append _ _).isInfix)

variable {m : MetadataStore}

/-- The cache after a batch. -/
lemma Cached.putBatch (h : Cached m flushed pending) (records : List (PointOffset × Record)) :
    Cached (m.putBatch records) flushed (pending ++ insertEntries records) := by
  induction records using reverseRecOn with
  | nil => simpa [MetadataStore.putBatch, insertEntries] using h
  | append_singleton records p ih =>
    rw [insertEntries_concat, ← append_assoc, MetadataStore.putBatch, foldl_append]
    refine ih.concat (ih.clean.put p.1 p.2) ?_ ?_
    · exact fun hnil => ne_nil_of_mem mem_insert_self hnil
    · intro o
      rw [foldl_cons, foldl_nil, put, getElem?_records_putMeta]
      simp [Entry.adds, Entry.removes, MetadataStore.putBatch]

/-- The id index after a batch of valid inserts. -/
lemma Indexes.indexIds {index : Std.ExtTreeMap String PointOffset} {log : List Entry}
    (h : Indexes index (placed log)) (hnamed : Named (log ++ insertEntries records))
    (hord : Ordered (log ++ insertEntries records)) :
    Indexes (indexIds index records) (placed (log ++ insertEntries records)) := by
  induction records using reverseRecOn with
  | nil => simpa [Engine.indexIds, TurboMemory.insertEntries] using h
  | append_singleton records p ih =>
    rw [insertEntries_concat, ← append_assoc] at hnamed hord ⊢
    rw [placed_concat, Engine.indexIds, foldl_append]
    exact (ih hnamed.left hord.left).insert (hord.fresh rfl) (hnamed _ _ [] rfl)

/-- **Applying inserted records**: memory agrees with the log again, but for ids that a payload that
does not parse leaves out. -/
lemma Applied.insertBatch {e' : Engine} (h : Applied strict e flushed pending)
    {r : Except StorageError Unit} (hord : Ordered (flushed ++ (pending ++ insertEntries records)))
    (hnamed : strict → Named (flushed ++ (pending ++ insertEntries records)))
    (hparses : strict → ∀ p ∈ records.dropLast, PayloadParses E p.2.payload)
    (hexec : e.applyBatch E Io.ok records = (r, e')) :
    Applied strict e' flushed (pending ++ insertEntries records) := by
  obtain ⟨hsame, n, hids, hall⟩ := applyBatch_spec hexec
  refine ⟨?_, hsame.accessCounters.trans h.counters, ?_, fun hs => ⟨hnamed hs, ?_⟩⟩
  · rw [hsame.metadata]
    exact h.cached.putBatch records
  · intro id o ho
    rw [hids] at ho
    rcases exists_of_getElem?_foldl_insert ho with
      ⟨p, hp, -, rfl⟩ | hold
    · refine ⟨.insert p.1 p.2, ?_, p.2, rfl⟩
      have hmem : .insert p.1 p.2 ∈ insertEntries records :=
        mem_map_of_mem (mem_of_mem_take hp)
      simp [hmem]
    · obtain ⟨x, hx, hadds⟩ := h.indexed id o hold
      exact ⟨x, by rw [← append_assoc]; exact mem_append_left _ hx, hadds⟩
  · rw [hids, hall (.inr (hparses hs)), ← append_assoc]
    refine (h.named hs).2.indexIds ?_ ?_
    · rw [append_assoc]
      exact hnamed hs
    · rw [append_assoc]
      exact hord

/-- Applying the records of an insert is safe. -/
lemma safe_applyInserts
    (hs : Committing E config strict flushed pending stale e₀ (insertEntries records) s)
    (happlied : Applied strict e₀ flushed pending)
    (hparses : strict → ∀ p ∈ records.dropLast, PayloadParses E p.2.payload) :
    SafeActs E config strict (Done E config strict (flushed ++ pending ++ insertEntries records))
      [.act (.applyBatch records)] s := by
  have happlied' : Applied strict s.engine flushed pending := by
    rw [hs.engine]
    exact { happlied with }
  have hdone : ∀ r e, s.engine.applyBatch E Io.ok records = (r, e) →
      Done E config strict (flushed ++ pending ++ insertEntries records) ⟨e, s.log, s.acked⟩ := by
    intro r e hexec
    obtain ⟨hsame, -⟩ := applyBatch_spec hexec
    refine ⟨⟨hsame.config.trans hs.config, hs.acked, flushed, pending ++ insertEntries records,
      stale, by rw [hs.log, append_assoc], ?_, ?_⟩, hs.log⟩
    · exact hs.durable.congr hsame (s.engine.metadata.putBatch_files records)
    · refine happlied'.insertBatch hs.durable.logged.ordered ?_ hparses hexec
      intro hstrict
      rw [← append_assoc]
      exact hs.named hstrict
  exact safe_write (fun _ => rfl) (hs.left.quiet rfl) (fun e => hdone _ e)
    fun _ e hexec => (hdone _ e hexec).1

/-! ## Dropping and replacing a record -/

/-- What is missing once the old record is dropped: one of the log's records in the cache, and its
id. -/
structure Dropped (E : Env) (config : StoreConfig) (strict : Prop)
    (flushed pending : List Entry) (stale : List WalOp) (e₀ : Engine) (id : String)
    (offset : PointOffset) (entries : List Entry) (s : Store) : Prop where
  config : s.engine.config = config
  acked : AckedIn s.acked s.log
  log : s.log = flushed ++ pending ++ entries
  durable : Durable E s.engine flushed (pending ++ entries) stale
  named : strict → Named (flushed ++ pending ++ entries)
  metadata : s.engine.metadata = e₀.metadata.remove offset
  counters : s.engine.accessCounters = e₀.accessCounters
  index : s.engine.idIndex = e₀.idIndex.erase id

variable {id : String} {offset : PointOffset} {record : Record}

/-- **Dropping a record** once its removal is logged. -/
lemma safe_removeFromIndexes (hs : Committing E config strict flushed pending stale e₀ entries s) :
    SafeActs E config strict (Dropped E config strict flushed pending stale e₀ id offset entries)
      [.act (.removeFromIndexes id offset)] s := by
  refine safe_ok rfl (fun _ => rfl) (hs.left.quiet rfl) ?_
  obtain ⟨hsame, hindex⟩ := removeFromIndexes_spec s.engine id offset
  have hmeta : s.engine.metadata = e₀.metadata := by rw [hs.engine]
  refine ⟨hsame.config.trans hs.config, hs.acked, hs.log, ?_, hs.named, ?_, ?_, ?_⟩
  · exact hs.durable.congr hsame ⟨rfl, rfl, rfl⟩
  · rw [hsame.metadata, hmeta]
  · rw [hsame.accessCounters, hs.engine]
  · rw [hindex, hs.engine]

/-- Where nothing is added the cache has one record less. -/
lemma Cached.delete (h : Cached m flushed pending) (offset : PointOffset)
    (id : String) : Cached (m.remove offset) flushed (pending ++ [.delete offset id]) := by
  refine h.concat (h.clean.remove offset) ?_ ?_
  · exact fun hnil => ne_nil_of_mem mem_insert_self hnil
  · intro o
    rw [getElem?_records_remove]
    simp [Entry.adds, Entry.removes]

/-- The cache after a replace. -/
lemma Cached.replace (h : Cached m flushed pending)
    (oldOffset offset : PointOffset) (record : Record) :
    Cached ((m.remove oldOffset).putBatch [(offset, record)]) flushed
      (pending ++ [.replace oldOffset offset record]) := by
  refine h.concat ((h.clean.remove oldOffset).put offset record) ?_ ?_
  · exact fun hnil => ne_nil_of_mem mem_insert_self hnil
  · intro o
    show ((m.remove oldOffset).putMeta offset _).records[o]? = _
    rw [getElem?_records_putMeta, getElem?_records_remove]
    simp [Entry.adds, Entry.removes]

/-- A delete is applied. -/
lemma Dropped.done
    (hs : Dropped E config strict flushed pending stale e₀ id offset [.delete offset id] s)
    (happlied : Applied strict e₀ flushed pending) :
    Done E config strict (flushed ++ pending ++ [.delete offset id]) s := by
  refine ⟨⟨hs.config, hs.acked, flushed, pending ++ [.delete offset id], stale,
    by rw [hs.log, append_assoc], hs.durable, ?_⟩, hs.log⟩
  refine ⟨?_, hs.counters.trans happlied.counters, ?_, ?_⟩
  · rw [hs.metadata]
    exact happlied.cached.delete offset id
  · intro id' o ho
    rw [hs.index, Std.ExtTreeMap.getElem?_erase] at ho
    split at ho
    · cases ho
    · obtain ⟨x, hx, hadds⟩ := happlied.indexed id' o ho
      exact ⟨x, by rw [← append_assoc]; exact mem_append_left _ hx, hadds⟩
  · intro hstrict
    rw [← append_assoc]
    refine ⟨hs.named hstrict, ?_⟩
    obtain ⟨r, hr, rfl⟩ : ∃ r, (placed (flushed ++ pending))[offset]? = some r ∧ r.id = id :=
      hs.named hstrict _ (.delete offset id) [] rfl
    rw [hs.index, placed_concat]
    exact (happlied.named hstrict).2.erase hr

/-- **Applying a replace**: memory agrees with the log again. -/
lemma safe_applyReplace {oldOffset offset : PointOffset}
    (hs : Dropped E config strict flushed pending stale e₀ record.id oldOffset
      [.replace oldOffset offset record] s) (happlied : Applied strict e₀ flushed pending) :
    SafeActs E config strict
      (Done E config strict (flushed ++ pending ++ [.replace oldOffset offset record]))
      [.act (.applyBatch [(offset, record)])] s := by
  have hleft := Committing.left { hs with engine := rfl }
  have hdone : ∀ r e, s.engine.applyBatch E Io.ok [(offset, record)] = (r, e) →
      Done E config strict (flushed ++ pending ++ [.replace oldOffset offset record])
        ⟨e, s.log, s.acked⟩ := by
    intro r e hexec
    obtain ⟨hsame, n, hids, hall⟩ := applyBatch_spec hexec
    rw [hall (.inr (by simp)), hs.index] at hids
    refine ⟨⟨hsame.config.trans hs.config, hs.acked, flushed,
      pending ++ [.replace oldOffset offset record], stale, by rw [hs.log, append_assoc], ?_, ?_⟩,
      hs.log⟩
    · exact hs.durable.congr hsame ⟨rfl, rfl, rfl⟩
    · refine ⟨?_, hsame.accessCounters.trans (hs.counters.trans happlied.counters), ?_, ?_⟩
      · rw [hsame.metadata]
        simp only [hs.metadata]
        exact happlied.cached.replace oldOffset offset record
      · intro id o ho
        rw [hids] at ho
        rw [← append_assoc]
        rcases exists_of_getElem?_foldl_insert ho with
          ⟨p, hp, -, rfl⟩ | hold
        · obtain rfl := mem_singleton.mp hp
          exact ⟨.replace oldOffset offset record, by simp, record, rfl⟩
        · rw [Std.ExtTreeMap.getElem?_erase] at hold
          split at hold
          · cases hold
          · obtain ⟨x, hx, hadds⟩ := happlied.indexed id o hold
            exact ⟨x, mem_append_left _ hx, hadds⟩
      · intro hstrict
        have hnamed := hs.named hstrict
        have hord := hs.durable.logged.ordered
        rw [← append_assoc] at hord ⊢
        refine ⟨hnamed, ?_⟩
        obtain ⟨old, hold, hid⟩ : ∃ r,
            (placed (flushed ++ pending))[oldOffset]? = some r ∧ r.id = record.id :=
          hnamed _ (.replace oldOffset offset record) [] rfl
        rw [hids, placed_concat]
        exact (happlied.named hstrict).2.replace hold hid (hord.fresh rfl)
  exact safe_write (fun _ => rfl) (hleft.quiet rfl) (fun e => hdone _ e)
    fun _ e hexec => (hdone _ e hexec).1

/-! ## Flushing -/

/-- A store that is being flushed, with the counter its flush started with. -/
def Flushing (E : Env) (config : StoreConfig) (strict : Prop) (flushed pending : List Entry)
    (stale : List WalOp) (nextSeq : ℕ) (s : Store) : Prop :=
  Busy E config strict flushed pending stale s ∧ s.engine.metadata.nextSeq = nextSeq

variable {nextSeq : ℕ}

section

variable (hs : Flushing E config strict flushed pending stale nextSeq s)
include hs

/-- Sealing segments. -/
lemma safe_processSeals : SafeActs E config strict
      (Flushing E config strict flushed pending stale nextSeq) [.act .processSeals] s := by
  obtain ⟨h, hn⟩ := hs
  refine safe_ok rfl (fun _ => rfl) ?_
    ⟨{ h with durable := { h.durable with }, applied := { h.applied with } }, hn⟩
  intro d himage
  refine h.left_nil ?_
  rw [← h.config]
  rcases images_single himage with rfl | rfl
  · exact h.durable.disk.holds
  · exact ⟨flushed, pending, stale, rfl, { h.durable.disk with }⟩

/-- Draining the access counters, of which there are none. -/
lemma safe_drainCounters : SafeActs E config strict
      (Flushing E config strict flushed pending stale nextSeq) [.act .drainCounters] s := by
  have hexec : s.engine.exec E Io.ok .drainCounters = (.ok (), s.engine) := by
    rw [exec, hs.1.applied.counters]
    exact congrArg (fun counters => (_, { s.engine with accessCounters := counters }))
      hs.1.applied.counters.symm
  exact safe_ok hexec (fun _ => rfl) (hs.1.left_self.quiet rfl) hs

end

/-- Syncing the log. -/
lemma safe_syncWal (h : Flushing E config strict flushed pending stale nextSeq s) :
    SafeActs E config strict
      (Flushing E config strict flushed pending stale nextSeq) [.act .syncWal] s :=
  safe_ok rfl (fun _ => rfl) (h.1.left_self.quiet rfl) h

section

variable (hs : Flushing E config strict flushed pending stale nextSeq s)
include hs

/-- **Flushing the vectors.** -/
lemma safe_flushVectors :
    SafeActs E config strict (fun s => Flushing E config strict flushed pending stale nextSeq s ∧
        Stamped s.engine (flushed ++ pending)) [.act .flushVectors] s := by
  obtain ⟨h, hn⟩ := hs
  obtain ⟨e', hexec, hdurable, hstamped, heq, -⟩ := h.durable.flushVectors_ok
  refine safe_ok hexec (fun _ => rfl) ?_ ⟨⟨⟨?_, h.acked, h.log, hdurable, ?_⟩, ?_⟩, hstamped⟩
  · exact fun d himage => h.left_inv (h.durable.flushVectors_image himage)
  · rw [heq]
    exact h.config
  · rw [heq]
    exact { h.applied with }
  · rw [heq]
    exact hn

/-- **Flushing the metadata** makes the whole log the snapshot's. -/
lemma safe_flushMetadata
    (hstamped : Stamped s.engine (flushed ++ pending)) : SafeActs E config strict
      (fun s => Busy E config strict (flushed ++ pending) [] (walOps stale pending) s ∧
        s.engine.metadata.db.lastAppliedSeq ≠ none) [.act (.flushMetadata (nextSeq - 1))] s := by
  obtain ⟨h, rfl⟩ := hs
  have hlast := h.durable.last_lt
  have hle : s.engine.metadata.db.last ≤ s.engine.metadata.nextSeq - 1 := by omega
  have hlt : s.engine.metadata.nextSeq - 1 < s.engine.metadata.nextSeq := by omega
  have hseq : ∀ x ∈ flushed ++ pending, ∀ p, x.adds = some p →
      p.2.insertSeq ≤ s.engine.metadata.nextSeq - 1 := by
    intro x hx p hp
    have := h.durable.nextSeq x hx p hp
    omega
  refine safe_ok rfl (fun _ => rfl) ?_ ⟨⟨h.config, h.acked, by rw [append_nil]; exact h.log,
    h.durable.flushMetadata_ok hstamped h.applied.cached hle hlt hseq, ?_⟩, ?_⟩
  · exact fun _ himage => h.left_nil (h.config ▸
      h.durable.flushMetadata_image hstamped h.applied.cached hle hlt hseq himage)
  · refine ⟨h.applied.cached.flush _, h.applied.counters, ?_, ?_⟩
    · rw [append_nil]
      exact h.applied.indexed
    · rw [append_nil]
      exact h.applied.named
  · show (s.engine.metadata.flush _).db.lastAppliedSeq ≠ none
    rw [(s.engine.metadata.flush_db _).1]
    simp

end

/-- **Saving the graph.** -/
lemma safe_saveGraph (h : Busy E config strict flushed pending stale s)
    (hcommitted : s.engine.metadata.db.lastAppliedSeq ≠ none) : SafeActs E config strict
      (Busy E config strict flushed pending stale) [.act .saveGraph] s := by
  have hcached := h.applied.cached
  exact safe_ok rfl (fun _ => rfl)
    (fun d himage => h.left_inv (h.durable.saveGraph_image hcommitted himage))
    { h with
      durable := h.durable.saveGraph hcommitted _
      applied := { h.applied with cached := { hcached with clean := { hcached.clean with } } } }

/-- **Clearing the log.** -/
lemma safe_clearWal (h : Busy E config strict flushed [] stale s) : SafeActs E config strict
      (Rest E config strict) [.act .clearWal] s :=
  safe_ok rfl (fun _ => rfl)
    (fun _ himage => h.left_nil (h.config ▸ h.durable.clearWal_image himage))
    ⟨h.config, h.acked, flushed, [], [], h.log, h.durable.clearWal, { h.applied with }⟩

/-! ## Requests -/

section

variable (h : Busy E config strict flushed pending stale s)
include h

/-- Taking offsets and sequence numbers. -/
lemma Busy.allocate (clock : ℕ → ℕ)
    (ps : List PreparedRecord) :
    Busy E config strict flushed pending stale { s with engine := { s.engine with
      metadata := (allocateAll clock 0 ps s.engine.metadata).2 } } ∧
    Writable { s.engine with metadata := (allocateAll clock 0 ps s.engine.metadata).2 }
      flushed pending (allocateAll clock 0 ps s.engine.metadata).1 := by
  have hmem := fun p => mem_allocateAll clock 0 ps s.engine.metadata (q := p)
  have hpairwise := pairwise_allocateAll clock 0 ps s.engine.metadata
  have hsnd := allocateAll_snd clock 0 ps s.engine.metadata
  generalize (allocateAll clock 0 ps s.engine.metadata).1 = records at hmem hpairwise ⊢
  generalize (allocateAll clock 0 ps s.engine.metadata).2 = m at hsnd ⊢
  subst hsnd
  have hd := h.durable
  have hcached := h.applied.cached
  refine ⟨⟨h.config, h.acked, h.log, ?_, ?_⟩, ?_⟩
  · exact { hd with
      nextOffset := fun x hx p hp => (hd.nextOffset x hx p hp).trans_le (Nat.le_add_right _ _)
      nextSeq := fun x hx p hp => (hd.nextSeq x hx p hp).trans_le (Nat.le_add_right _ _)
      last_lt := hd.last_lt.trans_le (Nat.le_add_right _ _) }
  · exact { h.applied with cached := { hcached with clean := { hcached.clean with } } }
  · refine ⟨hpairwise, ?_, fun p hp => (hmem p hp).1.2, fun p hp => (hmem p hp).2.1.2, ?_⟩
    · intro p hp x hx q hq
      exact (hd.nextOffset x hx q hq).trans_le (hmem p hp).1.1
    · intro p hp
      exact hd.last_lt.trans_le (hmem p hp).2.1.1

/-- **The first half of a write**: its vectors are stored and its entries logged. -/
lemma safe_commit
    (hrecords : Writable s.engine flushed pending records)
    (hadds : ∀ x ∈ entries, ∀ p, x.adds = some p → p ∈ records)
    (hord : Ordered (flushed ++ (pending ++ entries)))
    (hclosed : Closed (flushed ++ (pending ++ entries)))
    (hnamed : strict → Named (flushed ++ pending ++ entries)) : SafeActs E config strict
      (Committing E config strict flushed pending stale s.engine entries)
      ((records.map fun p => .act (.put p.1 p.2.embedding)) ++
        ([.act .syncVectors] ++ [.act (.log entries)])) s := by
  refine (safe_puts hrecords ⟨h, rfl, by simp⟩).append fun s₁ hs₁ => ?_
  refine (safe_syncVectors hs₁).append fun s₂ hs₂ => ?_
  obtain ⟨hbusy, heq, hheld⟩ := hs₂
  have hmeta : s₂.engine.metadata = s.engine.metadata := by rw [heq]
  refine safe_log hbusy heq ⟨hord, hclosed, ?_, ?_⟩ hnamed
  · intro x hx p hp
    exact hheld p (hadds x hx p hp)
  · intro x hx p hp
    have hp' := hadds x hx p hp
    rw [hmeta]
    exact ⟨hrecords.nextOffset p hp', hrecords.nextSeq p hp', hrecords.last_lt p hp'⟩

end

/-- The steps of a write. -/
lemma withAck_writePlan (records : List (PointOffset × Record)) (entries : List Entry)
    {removed : List Action} (hremoved : planEntries (removed.map .act) = []) :
    withAck (writePlan records entries removed) =
      ((records.map fun p => .act (.put p.1 p.2.embedding)) ++
        ([.act .syncVectors] ++ [.act (.log entries)])) ++
      (removed.map .act ++ ([.act (.applyBatch records)] ++ [.ack entries])) := by
  have hentries : planEntries ((writePlan records entries removed).map .act) = entries := by
    simp only [planEntries] at hremoved
    simp [writePlan, planEntries, flatMap_append, flatMap_map, hremoved]
  rw [withAck, hentries]
  simp [writePlan]

section

variable (h : Busy E config strict flushed pending stale s)
include h

/-- **An insert of one or more records** is safe. -/
lemma safe_inserts (hrecords : Writable s.engine flushed pending records)
    (hnamed : strict → Named (flushed ++ pending ++ insertEntries records))
    (hparses : strict → ∀ p ∈ records.dropLast, PayloadParses E p.2.payload) :
    SafeActs E config strict (Rest E config strict)
      (withAck (writePlan records (insertEntries records) [])) s := by
  have hlogged := h.durable.logged
  have hord := hlogged.ordered.insertEntries hrecords.pairwise hrecords.fresh
  have hclosed := hlogged.closed.insertEntries records
  rw [append_assoc] at hord hclosed
  rw [withAck_writePlan _ _ rfl]
  refine (safe_commit h hrecords ?_ hord hclosed hnamed).append fun s₁ hs₁ => ?_
  · intro x hx p hp
    obtain ⟨q, hq, rfl⟩ := mem_map.mp hx
    cases hp
    exact hq
  · exact (safe_applyInserts hs₁ h.applied hparses).append fun s₂ hs₂ => hs₂.ack

/-- **A replace** is safe. -/
lemma safe_replace {oldOffset offset : PointOffset}
    (hrecords : Writable s.engine flushed pending [(offset, record)])
    (hold : s.engine.idIndex[record.id]? = some oldOffset) :
    SafeActs E config strict (Rest E config strict)
      (withAck (writePlan [(offset, record)] [.replace oldOffset offset record]
        [.removeFromIndexes record.id oldOffset])) s := by
  have hlogged := h.durable.logged
  have hord := hlogged.ordered.concat (x := .replace oldOffset offset record) (by
    rintro p ⟨⟩ y hy q hq
    exact hrecords.fresh _ (by simp) y hy q hq)
  have hclosed := hlogged.closed.concat (x := .replace oldOffset offset record) (by
    rintro o ⟨⟩
    exact h.applied.indexed record.id _ hold)
  rw [append_assoc] at hord hclosed
  rw [withAck_writePlan _ _ rfl]
  refine (safe_commit h hrecords ?_ hord hclosed ?_).append fun s₁ hs₁ => ?_
  · rintro x hx p hp
    obtain rfl := mem_singleton.mp hx
    cases hp
    simp
  · intro hstrict
    obtain ⟨hnamed, hindexes⟩ := h.applied.named hstrict
    exact hnamed.concat ((hindexes _ _).mp hold)
  · refine (safe_removeFromIndexes hs₁).append fun s₂ hs₂ => ?_
    exact (safe_applyReplace hs₂ h.applied).append fun s₃ hs₃ => hs₃.ack

/-- **A delete** is safe. -/
lemma safe_delete
    (hold : s.engine.idIndex[id]? = some offset) :
    SafeActs E config strict (Rest E config strict)
      (withAck [.log [.delete offset id], .removeFromIndexes id offset]) s := by
  have hlogged := h.durable.logged
  have hord := hlogged.ordered.concat (x := .delete offset id) (by rintro p ⟨⟩)
  have hclosed := hlogged.closed.concat (x := .delete offset id) (by
    rintro o ⟨⟩
    exact h.applied.indexed id _ hold)
  rw [append_assoc] at hord hclosed
  have hnone : ∀ x ∈ [Entry.delete offset id], ∀ p, x.adds ≠ some p := by
    intro x hx p hp
    obtain rfl := mem_singleton.mp hx
    cases hp
  have hloggable : Loggable s.engine flushed pending [.delete offset id] :=
    ⟨hord, hclosed, fun x hx p hp => absurd hp (hnone x hx p),
      fun x hx p hp => absurd hp (hnone x hx p)⟩
  have hnamed : strict → Named (flushed ++ pending ++ [.delete offset id]) := by
    intro hstrict
    obtain ⟨hnamed, hindexes⟩ := h.applied.named hstrict
    exact hnamed.concat ((hindexes _ _).mp hold)
  simp only [withAck, planEntries, map_cons, map_nil, flatMap_cons, flatMap_nil,
    append_nil, nil_append, cons_append]
  refine (safe_log h rfl hloggable hnamed).cons fun s₁ hs₁ => ?_
  refine (safe_removeFromIndexes hs₁).cons fun s₂ hs₂ => ?_
  exact (hs₂.done h.applied).ack

/-- **A flush** is safe. -/
lemma safe_flush : SafeActs E config strict (Rest E config strict)
      (withAck [.processSeals, .drainCounters, .syncWal, .flushVectors,
        .flushMetadata (s.engine.metadata.nextSeq - 1), .saveGraph, .clearWal]) s := by
  simp only [withAck, planEntries, map_cons, map_nil, flatMap_cons, flatMap_nil,
    nil_append, cons_append]
  refine (safe_processSeals ⟨h, rfl⟩).cons fun s₁ hs₁ => ?_
  refine (safe_drainCounters hs₁).cons fun s₂ hs₂ => ?_
  refine (safe_syncWal hs₂).cons fun s₃ hs₃ => ?_
  refine (safe_flushVectors hs₃).cons fun s₄ hs₄ => ?_
  refine (safe_flushMetadata hs₄.1 hs₄.2).cons fun s₅ hs₅ => ?_
  refine (safe_saveGraph hs₅.1 hs₅.2).cons fun s₆ hs₆ => ?_
  refine (safe_clearWal hs₆).cons fun s₇ hs₇ => ?_
  exact safe_ack hs₇ nil_infix

end

/-- Ids that are not in the id index are not in the log's records. -/
lemma Applied.new (h : Applied strict e flushed pending) (hstrict : strict)
    (hid : id ∉ e.idIndex) (o : PointOffset) (r : Record)
    (hr : (placed (flushed ++ pending))[o]? = some r) : r.id ≠ id := by
  rintro rfl
  refine hid ?_
  rw [Std.ExtTreeMap.mem_iff_isSome_getElem?, ((h.named hstrict).2 _ _).mpr ⟨r, hr, rfl⟩]
  rfl

/-- An insert of prepared records of new ids is safe. -/
lemma safe_prepared (h : Busy E config strict flushed pending stale s)
    (clock : ℕ → ℕ) {ps : List PreparedRecord} (hnodup : (ps.map PreparedRecord.id).Nodup)
    (hnew : ∀ p ∈ ps, p.id ∉ s.engine.idIndex)
    (hparses : strict → ∀ p ∈ ps.dropLast, PayloadParses E p.payload) :
    SafeActs E config strict (Rest E config strict)
      (withAck (writePlan (allocateAll clock 0 ps s.engine.metadata).1
        (insertEntries (allocateAll clock 0 ps s.engine.metadata).1) []))
      { s with engine := { s.engine with
        metadata := (allocateAll clock 0 ps s.engine.metadata).2 } } := by
  obtain ⟨hbusy, hwritable⟩ := h.allocate clock ps
  have hids := map_allocateAll clock 0 ps s.engine.metadata PreparedRecord.id Record.id
    fun _ _ _ => rfl
  have hpayloads := map_allocateAll clock 0 ps s.engine.metadata PreparedRecord.payload
    Record.payload fun _ _ _ => rfl
  refine safe_inserts hbusy hwritable ?_ ?_
  · intro hstrict
    refine (h.applied.named hstrict).1.insertEntries (by rw [hids]; exact hnodup) ?_
    intro p hp o r hr
    have hmem : p.2.id ∈ ps.map PreparedRecord.id := hids ▸ mem_map_of_mem hp
    obtain ⟨q, hq, hqid⟩ := mem_map.mp hmem
    rw [← hqid]
    exact h.applied.new hstrict (hnew q hq) o r hr
  · intro hstrict p hp
    have hmem := mem_map_of_mem (f := fun q => q.2.payload) hp
    rw [map_dropLast, hpayloads, ← map_dropLast] at hmem
    obtain ⟨q, hq, hqp⟩ := mem_map.mp hmem
    show PayloadParses E p.2.payload
    rw [← hqp]
    exact hparses hstrict q hq

/-- **Every plan is safe.** -/
lemma safe_begin {r : ConceptVocabulary × Request} {s s' : Store} {plan : List Act}
    (hallowed : strict → r.2.Indexable E) (hs : Rest E config strict s)
    (hbegin : (service E config).begin r s = some (s', plan)) :
    SafeActs E config strict (Rest E config strict) plan s' := by
  obtain ⟨vocab, r⟩ := r
  obtain ⟨hconfig, hacked, flushed, pending, stale, hlog, hdurable, happlied⟩ := hs
  have hbusy : Busy E config strict flushed pending stale s :=
    ⟨hconfig, hacked, hlog, hdurable, happlied⟩
  simp only [service] at hbegin
  split at hbegin
  · cases hbegin
  next e actions reply hrun =>
  cases hbegin
  cases begun_of_begin hrun with
  | inserts clock ps hnodup hnew hdim hparses =>
    exact safe_prepared hbusy clock hnodup hnew fun hstrict => hparses (hallowed hstrict)
  | replace now p oldOffset hold hdim =>
    obtain ⟨hbusy', hwritable⟩ := hbusy.allocate (fun _ => now) [p]
    exact safe_replace hbusy' hwritable hold
  | delete id offset hold => exact safe_delete hbusy hold
  | flush => exact safe_flush hbusy

end TurboMemory
