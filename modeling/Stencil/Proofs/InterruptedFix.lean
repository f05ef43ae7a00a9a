import Mathlib.Data.List.Pairwise
import Stencil.Command.Execute
import Stencil.Proofs.CacheStore
import Stencil.Proofs.RunFiles

/-!
# Fixing files twice

A `fix` with a cache folder writes the files one after the other, remembers each in
its cache, and stores the cache at its end.  So a `fix` that comes to its end is not
applied twice: the next one with the same rules skips the files.

An interruption comes before the cache is stored.  What the cache knows by then of
the files that are finished is lost, and the stored entries stay what they were.
-/

namespace Stencil.Command

/-- A `fix` that has read what it needs, with the cache it is to keep. -/
structure Job where
  session : Session
  settings : Settings
  paths : List Bytes
  runner : Runner
  targets : List Bytes
  workspace : Workspace
  prepared : prepareFix session settings paths = .ok (runner, targets, workspace)
  rooted : Files.IsFolder session.files []
  writes : settings.dryRun = false
  caches : settings.cacheFolder ≠ []

namespace Job

variable (job : Job)

/-- How the files were run. -/
def outcome : Outcome :=
  job.runner.run (job.session.ending job.settings) none job.session.clock job.targets job.workspace

def reply : Reply :=
  fix job.session job.settings job.paths

/-- The file the cache is stored in. -/
def store : Bytes :=
  Path.join job.settings.cacheFolder Cache.fileName

/-- The entries that are stored once the `fix` is over. -/
def storedAfter : Except Failure (Keyed Cache.Entry) :=
  Cache.stored job.reply.files job.store

/-- No file is meant twice, and none is the one that the cache is stored in, which is
no link. -/
structure Distinct : Prop where
  targets : job.targets.Pairwise fun left right => ¬ Files.SameFile job.workspace.files left right
  store : ∀ path ∈ job.targets, ¬ Files.SameFile job.workspace.files path job.store
  unlinked : Cache.Unlinked job.workspace.files job.store

/-- The cache can be stored. -/
def Storable : Prop :=
  ∀ cache, job.outcome.workspace.cache = some cache →
    (cache.save job.outcome.workspace.files).failure = none

/-- A later `fix` with the same rules and the same cache, whose entries do not expire,
and no edits in between. -/
structure Repeats (next job : Job) : Prop where
  files : next.session.files = job.reply.files
  digest : next.runner.digest = job.runner.digest
  folder : next.settings.cacheFolder = job.settings.cacheFolder
  ageless : next.settings.cacheMaxAge ≤ 0
  distinct : next.Distinct

end Job

theorem prepareFix_eq_ok {session : Session} {settings : Settings} {paths targets : List Bytes}
    {runner : Runner} {workspace : Workspace}
    (prepared : prepareFix session settings paths = .ok (runner, targets, workspace)) :
    runner.mode = fixMode settings ∧ openCache session settings = .ok workspace := by
  unfold prepareFix at prepared
  dsimp only [bind, Except.bind, pure, Except.pure, throw, throwThe, MonadExceptOf.throw]
    at prepared
  split at prepared
  · cases prepared
  split at prepared
  · cases prepared
  split at prepared
  · cases prepared
  split at prepared
  · cases prepared
  split at prepared
  · cases prepared
  · next opened =>
      cases prepared
      exact ⟨rfl, opened⟩

theorem stored_runFiles_of_apart {runner : Runner} {clock : Nat → Nat} {paths : List Bytes}
    {workspace : Workspace} {store : Bytes}
    (apart : ∀ path ∈ paths, ¬ Files.SameFile workspace.files path store) :
    Cache.stored (runner.runFiles clock paths workspace).2.files store =
      Cache.stored workspace.files store := by
  induction paths generalizing clock workspace with
  | nil => rfl
  | cons path paths ih =>
      obtain ⟨first, later⟩ := List.forall_mem_cons.mp apart
      have shape := runner.sameShape_runFile (clock 0) path workspace
      rw [Runner.runFiles, ih (by simpa only [shape.sameFile_iff] using later)]
      obtain same | ⟨old, content, readable, written⟩ :=
        runner.overwrites_runFile (clock 0) path workspace
      · rw [same]
      · exact Cache.stored_write_of_apart readable written first

namespace Job

variable {job : Job}

theorem mode_eq (job : Job) : job.runner.mode = .write := by
  rw [(prepareFix_eq_ok job.prepared).1, fixMode, job.writes]
  rfl

theorem opened (job : Job) :
    ∃ cache, job.workspace.cache = some cache ∧
      Cache.load job.settings.cacheFolder job.settings.cacheMaxAge job.session.files =
        .ok (cache, job.workspace.files) := by
  have opens := (prepareFix_eq_ok job.prepared).2
  have used : (job.settings.cacheFolder.isEmpty || job.settings.dryRun) = false := by
    simp [job.writes, job.caches]
  rw [openCache, used, if_neg Bool.false_ne_true] at opens
  split at opens
  · cases opens
  · next cache files loaded =>
      rw [← Except.ok.inj opens]
      exact ⟨cache, rfl, loaded⟩

/-- The files that are finished. -/
def finished (job : Job) : List Bytes :=
  match job.session.ending job.settings with
  | some interruption => job.targets.take interruption.after
  | none => job.targets

/-- The results and the workspace once the last of these is finished. -/
def ran (job : Job) : List Result × Workspace :=
  job.runner.runFiles job.session.clock job.finished job.workspace

theorem finished_sublist (job : Job) : job.finished.Sublist job.targets := by
  unfold finished
  split
  · exact List.take_sublist _ _
  · exact .refl _

theorem workspace_outcome (job : Job) : job.outcome.workspace = job.ran.2 := by
  unfold outcome ran finished
  cases job.session.ending job.settings with
  | none => rfl
  | some interruption => rfl

theorem mem_ran_of_mem_results {result : Result} (member : result ∈ job.outcome.results)
    (isFile : result.path ≠ []) : result ∈ job.ran.1 := by
  unfold outcome at member
  unfold ran finished
  cases ending : job.session.ending job.settings with
  | none =>
      rw [ending] at member
      exact member
  | some interruption =>
      rw [ending] at member
      rcases List.mem_append.mp member with done | left
      · exact done
      · obtain ⟨path, -, rfl⟩ := List.mem_map.mp left
        exact absurd rfl isFile

theorem path_mem_finished {result : Result} (member : result ∈ job.ran.1) :
    result.path ∈ job.finished := by
  rw [← job.runner.paths_runFiles job.session.clock job.finished job.workspace]
  exact List.mem_map_of_mem member

theorem continues_ran (job : Job) : job.workspace.Continues job.ran.2 :=
  Workspace.continues_runFiles job.mode_eq _ _ _

theorem files_reply_of_interrupted {interruption : Interruption}
    (interrupted : job.session.ending job.settings = some interruption) :
    job.reply.files = job.ran.2.files := by
  rw [← workspace_outcome]
  unfold reply fix outcome
  rw [job.prepared, interrupted]
  rfl

theorem files_reply_of_ended (ended : job.session.ending job.settings = none) :
    job.reply.files = filesWithCache job.ran.2 := by
  rw [← workspace_outcome]
  have succeeds : job.outcome.failure = none := by
    unfold outcome
    rw [ended, Runner.run]
    exact if_pos (Nat.le_refl _)
  unfold outcome at succeeds ⊢
  unfold reply fix
  rw [job.prepared]
  dsimp only
  rw [succeeds]

section Distinct

variable (distinct : job.Distinct)
include distinct

theorem finished_apart :
    job.finished.Pairwise fun left right => ¬ Files.SameFile job.workspace.files left right :=
  distinct.targets.sublist job.finished_sublist

theorem unlinked_ran : Cache.Unlinked job.ran.2.files job.store :=
  distinct.unlinked.of_sameShape job.continues_ran.shape

/-- What a file holds after the run it still holds when the cache is stored. -/
theorem read_reply {path content : Bytes} (target : path ∈ job.targets)
    (holds : Files.read job.ran.2.files path = .ok content) :
    Files.read job.reply.files path = .ok content := by
  cases ending : job.session.ending job.settings with
  | some interruption =>
      rw [files_reply_of_interrupted ending]
      exact holds
  | none =>
      obtain ⟨cache, shared, loaded⟩ := job.opened
      obtain ⟨later, sharedLater, folder, -⟩ := job.continues_ran.cache cache shared
      obtain ⟨-, entries, -, rfl⟩ := Cache.load_eq_ok loaded
      have isStore : later.file = job.store := by
        rw [Cache.file, folder]
        rfl
      rw [files_reply_of_ended ending, filesWithCache, sharedLater]
      apply Cache.read_save_of_apart
      · rw [isStore]
        exact unlinked_ran distinct
      · rw [isStore, job.continues_ran.shape.sameFile_iff]
        exact fun same => distinct.store path target same.symm
      · exact holds

/-- Everything that is finished and did not fail is remembered. -/
theorem remembers_ran {result : Result} (member : result ∈ job.ran.1)
    (succeeds : result.failure = none) :
    ∃ content, job.ran.2.Remembers job.runner.digest result.path content := by
  obtain ⟨cache, shared, -⟩ := job.opened
  exact Workspace.remembers_runFiles job.mode_eq shared (finished_apart distinct) member succeeds

theorem stored_ran : Cache.stored job.ran.2.files job.store =
    Cache.stored job.workspace.files job.store := by
  apply stored_runFiles_of_apart
  intro path member
  exact distinct.store path (job.finished_sublist.subset member)

theorem storedAfter_of_interrupted {interruption : Interruption}
    (interrupted : job.session.ending job.settings = some interruption) :
    job.storedAfter = Cache.stored job.workspace.files job.store := by
  rw [storedAfter, files_reply_of_interrupted interrupted, stored_ran distinct]

/-- At the end the file of the cache holds what is remembered. -/
theorem holds_reply (ended : job.session.ending job.settings = none) (storable : job.Storable)
    {path content digest : Bytes} (remembers : job.ran.2.Remembers digest path content) :
    ∃ cache, job.ran.2.cache = some cache ∧
      Cache.Holds job.reply.files job.store cache.entries := by
  obtain ⟨cache, shared, loaded⟩ := job.opened
  obtain ⟨later, sharedLater, folder, -, changes⟩ := job.continues_ran.cache cache shared
  obtain ⟨-, entries, storedEntries, rfl⟩ := Cache.load_eq_ok loaded
  refine ⟨later, sharedLater, ?_⟩
  rw [files_reply_of_ended ended, filesWithCache, sharedLater]
  have isStore : later.file = job.store := by
    rw [Cache.file, folder]
    rfl
  rw [Storable, workspace_outcome] at storable
  rw [← isStore]
  rcases changes with dirty | unchanged
  · apply Cache.holds_save _ dirty (storable later sharedLater)
    rw [isStore]
    exact unlinked_ran distinct
  · -- nothing was recorded, so the entries are those that were loaded
    obtain ⟨entry, recorded, -⟩ := remembers.recorded
    rw [Workspace.recorded?, sharedLater, Option.bind_some, unchanged] at recorded
    have filled : entries ≠ [] := by
      rintro rfl
      cases recorded
    rw [unchanged]
    exact Cache.holds_of_stored ((stored_ran distinct).trans storedEntries) filled

end Distinct

/-- What the next `fix` with the same rules does about a file that is remembered. -/
theorem Repeats.skips {next : Job} (repeats : next.Repeats job) {entries : Keyed Cache.Entry}
    (holds : Cache.Holds job.reply.files job.store entries) {path content : Bytes}
    (readable : Files.read job.reply.files path = .ok content)
    (recorded : ∃ entry, entries.get? path = some entry ∧ entry.hash = contentHash content ∧
      entry.digest = job.runner.digest)
    (target : path ∈ next.targets) :
    Files.read next.reply.files path = .ok content ∧
      (next.session.ending next.settings = none →
        { path, input := content, output := content, cached := true } ∈ next.outcome.results) := by
  obtain ⟨cache, shared, loaded⟩ := next.opened
  have sameStore : job.store = Path.join next.settings.cacheFolder Cache.fileName := by
    rw [repeats.folder]
    rfl
  rw [← repeats.files, sameStore] at holds
  -- Opening the cache may create its folder, which leaves the files as they are.
  obtain ⟨rfl, grows⟩ := Cache.load_of_holds next.rooted holds loaded
  rw [← repeats.files] at readable
  rw [← repeats.digest] at recorded
  have remembers : next.workspace.Remembers next.runner.digest path content := by
    refine ⟨grows.read_eq readable, ?_⟩
    rw [Workspace.recorded?, shared]
    exact recorded
  have ageless : ∀ cache, next.workspace.cache = some cache → cache.maxAge ≤ 0 := by
    intro cache present
    obtain rfl := Option.some.inj (shared.symm.trans present)
    exact repeats.ageless
  have alone : ∀ other ∈ next.finished, other ≠ path →
      ¬ Files.SameFile next.workspace.files other path := by
    intro other member differ
    have symmetric : Std.Symm fun left right =>
        ¬ Files.SameFile next.workspace.files left right :=
      ⟨fun left right apart same => apart same.symm⟩
    exact repeats.distinct.targets.forall (next.finished_sublist.subset member) target differ
  obtain ⟨still, skipped⟩ := remembers.runFiles next.mode_eq ageless alone next.session.clock
  refine ⟨read_reply repeats.distinct target still.holds, fun ended => ?_⟩
  unfold finished at skipped
  unfold outcome
  rw [ended] at skipped ⊢
  exact skipped target

/-- A `fix` that comes to its end is not applied twice; an interrupted one may be.  At
every point the cache has an entry for each file that is finished and did not fail, with
what the file holds.  At the end these entries are stored where the cache can be, and the
next `fix` with the same rules skips the files and leaves them as they are.  After an
interruption the stored entries are what they were before.

No file is meant twice, and none is the one that the cache is stored in, which is no link;
in the next `fix` entries do not expire. -/
theorem fix_remembered_at_end (job : Job) (distinct : job.Distinct) :
    (∀ result ∈ job.outcome.results, result.failure = none → result.path ≠ [] →
      ∃ content, Files.read job.reply.files result.path = .ok content ∧
        job.outcome.workspace.Remembers job.runner.digest result.path content) ∧
    (∀ interruption, job.session.ending job.settings = some interruption →
      job.storedAfter = Cache.stored job.workspace.files job.store) ∧
    (job.session.ending job.settings = none → job.Storable →
      ∀ result ∈ job.outcome.results, result.failure = none → result.path ≠ [] →
        ∃ content entries entry, Files.read job.reply.files result.path = .ok content ∧
          job.storedAfter = .ok entries ∧ entries.get? result.path = some entry ∧
          entry.hash = contentHash content ∧ entry.digest = job.runner.digest ∧
          ∀ next : Job, next.Repeats job → result.path ∈ next.targets →
            Files.read next.reply.files result.path = .ok content ∧
            (next.session.ending next.settings = none →
              { path := result.path, input := content, output := content, cached := true } ∈
                next.outcome.results)) := by
  have remembered : ∀ result ∈ job.outcome.results, result.failure = none → result.path ≠ [] →
      ∃ content, Files.read job.reply.files result.path = .ok content ∧
        job.ran.2.Remembers job.runner.digest result.path content := by
    intro result member succeeds isFile
    have done := mem_ran_of_mem_results member isFile
    obtain ⟨content, remembers⟩ := remembers_ran distinct done succeeds
    have target := job.finished_sublist.subset (path_mem_finished done)
    exact ⟨content, read_reply distinct target remembers.holds, remembers⟩
  refine ⟨?_, fun interruption => storedAfter_of_interrupted distinct, ?_⟩
  · rw [workspace_outcome]
    exact remembered
  · intro ended storable result member succeeds isFile
    obtain ⟨content, readable, remembers⟩ := remembered result member succeeds isFile
    obtain ⟨cache, shared, holds⟩ := holds_reply distinct ended storable remembers
    obtain ⟨entry, recorded, hash, digest⟩ := remembers.recorded
    rw [Workspace.recorded?, shared, Option.bind_some] at recorded
    refine ⟨content, cache.entries, entry, readable, holds.stored_eq, recorded, hash, digest, ?_⟩
    intro next repeats target
    exact repeats.skips holds readable ⟨entry, recorded, hash, digest⟩ target

instance (job : Job) : Decidable job.Distinct :=
  decidable_of_iff
    ((job.targets.Pairwise fun left right => ¬ Files.SameFile job.workspace.files left right) ∧
      (∀ path ∈ job.targets, ¬ Files.SameFile job.workspace.files path job.store) ∧
      Cache.Unlinked job.workspace.files job.store)
    ⟨fun ⟨targets, store, unlinked⟩ => ⟨targets, store, unlinked⟩,
      fun distinct => ⟨distinct.targets, distinct.store, distinct.unlinked⟩⟩

instance (job : Job) : Decidable job.Storable :=
  decidable_of_iff
    (job.outcome.workspace.cache.all fun cache =>
      (cache.save job.outcome.workspace.files).failure.isNone) <| by
    unfold Storable
    cases job.outcome.workspace.cache <;> simp

/-- The job of a `fix` that finds what it needs. -/
def ofPrepared (session : Session) (settings : Settings) (paths : List Bytes)
    (rooted : Files.IsFolder session.files []) (writes : settings.dryRun = false)
    (caches : settings.cacheFolder ≠ [])
    (succeeds : (prepareFix session settings paths).toOption.isSome = true) : Job :=
  match prepared : prepareFix session settings paths with
  | .ok (runner, targets, workspace) =>
      { session, settings, paths, runner, targets, workspace, prepared, rooted, writes, caches }
  | .error _ => by
      rw [prepared] at succeeds
      cases succeeds

theorem session_ofPrepared {session : Session} {settings : Settings} {paths : List Bytes}
    (rooted : Files.IsFolder session.files []) (writes : settings.dryRun = false)
    (caches : settings.cacheFolder ≠ [])
    (succeeds : (prepareFix session settings paths).toOption.isSome = true) :
    (ofPrepared session settings paths rooted writes caches succeeds).session = session := by
  unfold ofPrepared
  split
  · rfl
  · next prepared =>
      rw [prepared] at succeeds
      cases succeeds

/-- Writes `ping pong` for every `ping`. -/
def growing : Bytes :=
  bytes "[[rules]]\npattern = \"ping\"\nreplacement = \"ping pong\"\n"

/-- A folder with the file `a` and the rules. -/
def unfixed : Files.Node :=
  .folder [(bytes "a", .file (bytes "ping")), (bytes "r.toml", .file growing)]

def keeping : Settings where
  config := bytes "r.toml"
  cacheFolder := bytes "c"

/-- A `fix` that comes to its end. -/
def whole : Job :=
  ofPrepared { files := unfixed } keeping [bytes "a"] (by decide) rfl (by decide)
    (by decide +kernel)

/-- A `fix` that is interrupted when `a` is finished. -/
def cut : Job :=
  ofPrepared { files := unfixed, interruption := some { cause := .deadline, after := 1 } } keeping
    [bytes "a"] (by decide) rfl (by decide) (by decide +kernel)

/-- The same again. -/
def afterWhole : Job :=
  ofPrepared { files := whole.reply.files } keeping [bytes "a"] (by decide +kernel) rfl (by decide)
    (by decide +kernel)

/-- The same again. -/
def afterCut : Job :=
  ofPrepared { files := cut.reply.files } keeping [bytes "a"] (by decide +kernel) rfl (by decide)
    (by decide +kernel)

theorem fix_remembered_at_end_twice :
    ∃ job next : Job, job.Distinct ∧ job.Storable ∧ next.Repeats job ∧
      Files.read job.reply.files (bytes "a") = .ok (bytes "ping pong") ∧
      Files.read next.reply.files (bytes "a") = .ok (bytes "ping pong") ∧
      { path := bytes "a", input := bytes "ping pong", output := bytes "ping pong",
        cached := true } ∈ next.outcome.results := by
  obtain ⟨distinct, storable, ended, written, result, member, succeeds, isA⟩ :
      whole.Distinct ∧ whole.Storable ∧ whole.session.ending whole.settings = none ∧
        Files.read whole.reply.files (bytes "a") = .ok (bytes "ping pong") ∧
        ∃ result ∈ whole.outcome.results, result.failure = none ∧ result.path = bytes "a" := by
    decide +kernel
  obtain ⟨digest, folder, ageless, distinctNext, target, endedNext⟩ :
      afterWhole.runner.digest = whole.runner.digest ∧
        afterWhole.settings.cacheFolder = whole.settings.cacheFolder ∧
        afterWhole.settings.cacheMaxAge ≤ 0 ∧ afterWhole.Distinct ∧
        bytes "a" ∈ afterWhole.targets ∧
        afterWhole.session.ending afterWhole.settings = none := by
    decide +kernel
  have repeats : afterWhole.Repeats whole :=
    ⟨congrArg Session.files (session_ofPrepared _ _ _ _), digest, folder, ageless, distinctNext⟩
  obtain ⟨-, -, atEnd⟩ := fix_remembered_at_end whole distinct
  obtain ⟨content, entries, entry, holds, -, -, -, -, skips⟩ :=
    atEnd ended storable result member succeeds (by rw [isA]; decide)
  rw [isA] at holds skips
  obtain rfl := Except.ok.inj (holds.symm.trans written)
  obtain ⟨kept, skipped⟩ := skips afterWhole repeats target
  exact ⟨whole, afterWhole, distinct, storable, repeats, written, kept, skipped endedNext⟩

/-- After an interruption nothing is stored, and the rules run on their own output. -/
theorem interrupted_fix_applied_twice :
    cut.Distinct ∧ afterCut.Repeats cut ∧
      Files.read cut.reply.files (bytes "a") = .ok (bytes "ping pong") ∧
      cut.storedAfter = .ok [] ∧
      Files.read afterCut.reply.files (bytes "a") = .ok (bytes "ping pong pong") := by
  obtain ⟨distinct, written, storedNone⟩ :
      cut.Distinct ∧ Files.read cut.reply.files (bytes "a") = .ok (bytes "ping pong") ∧
        cut.storedAfter = .ok [] := by
    decide +kernel
  obtain ⟨digest, folder, ageless, distinctNext, again⟩ :
      afterCut.runner.digest = cut.runner.digest ∧
        afterCut.settings.cacheFolder = cut.settings.cacheFolder ∧
        afterCut.settings.cacheMaxAge ≤ 0 ∧ afterCut.Distinct ∧
        Files.read afterCut.reply.files (bytes "a") = .ok (bytes "ping pong pong") := by
    decide +kernel
  exact ⟨distinct, ⟨congrArg Session.files (session_ofPrepared _ _ _ _), digest, folder, ageless,
    distinctNext⟩, written, storedNone, again⟩

end Job

end Stencil.Command
