import Mathlib.Data.List.Basic
import Mathlib.Data.List.Nodup
import Mathlib.Data.List.Pairwise
import Stencil.Proofs.RunFiles
import Stencil.Proofs.SeparateChanges

/-!
# The order of a run does not matter

A run may process its files in any order.  What it is going to do with a file depends
on what the path finds, on whether it can be written, and on what the cache remembers
about the path, and other files change none of this.  So each job has the result it would
have had at the start, and what the jobs change are changes at separate places.  The
results are kept by the number of the job, and are printed when all jobs are done.

Another order gives the files other times, and what the cache remembers expires.  This is
the only way in which the order can be told.
-/

namespace Stencil

/-- What is changed for a file: its text, unless it stays as it is, and what is
remembered about it. -/
structure Deed where
  path : Bytes
  /-- What the file is left with. -/
  output : Bytes
  /-- Where the file is, if it is written. -/
  place : Option Files.Location
  /-- The file is not remembered when it could not be written whole. -/
  remembered : Bool

/-- The files after a deed. -/
def Deed.write (deed : Deed) (tree : Files.Node) : Files.Node :=
  match deed.place with
  | none => tree
  | some location => tree.put location (.file deed.output)

/-- Deeds that are about different paths and are done at separate places. -/
structure Deed.Separate (deed other : Deed) : Prop where
  path_ne : deed.path ≠ other.path
  places : ∀ place, deed.place = some place →
    ∀ elsewhere, other.place = some elsewhere → Files.Separate place elsewhere

theorem Deed.Separate.write_comm {deed other : Deed} (separate : deed.Separate other)
    (tree : Files.Node) : other.write (deed.write tree) = deed.write (other.write tree) := by
  unfold Deed.write
  cases placed : deed.place with
  | none => rfl
  | some place =>
      cases otherPlaced : other.place with
      | none => rfl
      | some elsewhere =>
          have apart := separate.places place placed elsewhere otherPlaced
          exact Files.Node.put_comm ⟨apart.2, apart.1⟩ _ _ tree

namespace Runner

/-- What a run is going to change for a file. -/
def deed? (runner : Runner) (now : Nat) (path : Bytes) (workspace : Workspace) : Option Deed :=
  match Files.read workspace.files path, Files.resolve workspace.files true path with
  | .ok input, .ok (.taken location) =>
      if runner.mode = .write ∧ runner.isFresh workspace now path input = false then
        let output := (runner.process input).1
        if output = input then
          some { path, output, place := none, remembered := true }
        else
          match workspace.faults path with
          | none => some { path, output, place := some location, remembered := true }
          | some fault => (fault.left? output).map fun left =>
              { path, output := left, place := some location, remembered := false }
      else none
  | _, _ => none

/-- A cache after a deed. -/
def remember (runner : Runner) (now : Nat) (cache : Option Cache) (deed : Deed) : Option Cache :=
  if deed.remembered then cache.map (·.record now deed.path deed.output runner.digest)
  else cache

/-- A workspace after a deed. -/
def commit (runner : Runner) (now : Nat) (workspace : Workspace) (deed : Deed) : Workspace :=
  { workspace with
    files := deed.write workspace.files
    cache := runner.remember now workspace.cache deed }

/-- Why the new text of a file is not written whole. -/
def refusal? (runner : Runner) (path input : Bytes) (workspace : Workspace) : Option Failure :=
  if runner.mode = .write ∧ (runner.process input).1 ≠ input then
    (workspace.faults path).map fun fault =>
      .inside (bytes "error writing " ++ path) (Files.refused fault.action path fault.refusal)
  else none

/-- What a run of one file reports when it can be read. -/
def report (runner : Runner) (now : Nat) (path input : Bytes) (workspace : Workspace) : Result :=
  if runner.isFresh workspace now path input then
    { path, input, output := input, cached := true }
  else
    { runner.resultOf path input with failure := runner.refusal? path input workspace }

section Step

variable {runner : Runner} {now : Nat} {path : Bytes} {workspace : Workspace}

/-- A job for a file that can be read does what it is going to do. -/
theorem runFile_of_read {input : Bytes} (readable : Files.read workspace.files path = .ok input) :
    runner.runFile now path workspace =
      (runner.report now path input workspace,
        ((runner.deed? now path workspace).map (runner.commit now workspace)).getD workspace) := by
  obtain ⟨location, leads, found⟩ :=
    Files.find_eq_ok_iff.mp (Files.read_eq_ok_iff.mp readable)
  unfold runFile deed? report refusal?
  rw [Files.status_of_read readable, readable, leads]
  dsimp only
  cases fresh : runner.isFresh workspace now path input with
  | true => simp
  | false =>
      by_cases writes : runner.mode = .write
      · by_cases same : (runner.process input).1 = input
        · simp [writes, same, store, resultOf, commit, remember, Deed.write]
        · -- The text is written as far as the fault allows.
          cases faulty : workspace.faults path with
          | none =>
              simp [writes, same, store, resultOf, commit, remember, Deed.write, Files.attempt,
                faulty, Files.write, leads, found]
          | some fault =>
              cases left : fault.left? (runner.process input).1 <;>
                simp [writes, same, store, resultOf, commit, remember, Deed.write, Files.attempt,
                  faulty, left, Files.write, leads, found]
      · simp [writes, resultOf]

theorem deed?_of_not_read {failure : Failure}
    (unreadable : Files.read workspace.files path = .error failure) :
    runner.deed? now path workspace = none := by
  rw [deed?, unreadable]

theorem workspace_runFile (runner : Runner) (now : Nat) (path : Bytes) (workspace : Workspace) :
    (runner.runFile now path workspace).2 =
      ((runner.deed? now path workspace).map (runner.commit now workspace)).getD workspace := by
  cases readable : Files.read workspace.files path with
  | ok input => rw [runFile_of_read readable]
  | error failure =>
      rw [deed?_of_not_read readable, runFile, readable]
      split <;> rfl

/-- Only a file is written, and only where its path leads. -/
theorem deed?_sound {deed : Deed} (due : runner.deed? now path workspace = some deed) :
    deed.path = path ∧ ∃ input location, Files.read workspace.files path = .ok input ∧
      Files.resolve workspace.files true path = .ok (.taken location) ∧
      workspace.files.get? location = some (.file input) ∧
      ∀ place, deed.place = some place → place = location := by
  cases readable : Files.read workspace.files path with
  | error failure =>
      rw [deed?_of_not_read readable] at due
      cases due
  | ok input =>
      obtain ⟨location, leads, found⟩ :=
        Files.find_eq_ok_iff.mp (Files.read_eq_ok_iff.mp readable)
      rw [deed?, readable, leads] at due
      dsimp only at due
      refine (?_ : deed.path = path ∧ ∀ place, deed.place = some place → place = location).imp_right
        fun placed => ⟨input, location, rfl, leads, found, placed⟩
      split at due
      · split at due
        · cases due
          exact ⟨rfl, nofun⟩
        · split at due
          · cases due
            exact ⟨rfl, fun place written => (Option.some.inj written).symm⟩
          · obtain ⟨left, -, rfl⟩ := Option.map_eq_some_iff.mp due
            exact ⟨rfl, fun place written => (Option.some.inj written).symm⟩
      · cases due

end Step

end Runner

namespace Workspace

/-- What a run looks at for a path is what it was at the start. -/
structure Undisturbed (start now : Workspace) (path : Bytes) : Prop where
  shape : Files.SameShape now.files start.files
  found : Files.FindsAlike now.files start.files path
  remembered : now.cache.map (fun cache => (cache.maxAge, cache.entries.get? path)) =
    start.cache.map fun cache => (cache.maxAge, cache.entries.get? path)
  faults : now.faults = start.faults

theorem Undisturbed.refl (workspace : Workspace) (path : Bytes) :
    Undisturbed workspace workspace path :=
  ⟨.refl _, .refl _ _, rfl, rfl⟩

section Undisturbed

variable {runner : Runner} {start now : Workspace} {path : Bytes} {time : Nat}

theorem Undisturbed.isFresh_eq (undisturbed : Undisturbed start now path) (content : Bytes) :
    runner.isFresh now time path content = runner.isFresh start time path content := by
  have remembered := undisturbed.remembered
  unfold Runner.isFresh
  cases before : start.cache with
  | none =>
      cases after : now.cache with
      | none => rfl
      | some cache => simp [before, after] at remembered
  | some old =>
      cases after : now.cache with
      | none => simp [before, after] at remembered
      | some cache =>
          obtain ⟨age, entry⟩ : cache.maxAge = old.maxAge ∧
              cache.entries.get? path = old.entries.get? path := by
            simpa [before, after] using remembered
          simp [Cache.fresh, Cache.expired, age, entry]

theorem Undisturbed.deed?_eq (undisturbed : Undisturbed start now path) :
    runner.deed? time path now = runner.deed? time path start := by
  unfold Runner.deed?
  rw [undisturbed.found.read_eq, undisturbed.shape.resolve_eq, undisturbed.faults]
  simp only [undisturbed.isFresh_eq]

theorem Undisturbed.result_eq (undisturbed : Undisturbed start now path) :
    (runner.runFile time path now).1 = (runner.runFile time path start).1 := by
  have same := undisturbed.found.read_eq
  cases readable : Files.read start.files path with
  | ok input =>
      rw [Runner.runFile_of_read readable, Runner.runFile_of_read (same.trans readable)]
      simp only [Runner.report, Runner.refusal?, undisturbed.isFresh_eq, undisturbed.faults]
  | error failure =>
      unfold Runner.runFile
      rw [same, readable]
      cases undisturbed.found with
      | same equal =>
          rw [Files.status, equal, ← Files.status]
          split <;> rfl
      | folder leftFound rightFound =>
          rw [Files.status, leftFound, Files.status, rightFound]
          rfl

/-- A job disturbs no other path that leads to another file. -/
theorem Undisturbed.runFile {other : Bytes} (own : Undisturbed start now path)
    (undisturbed : Undisturbed start now other)
    (apart : ¬ Files.SameFile start.files path other) :
    Undisturbed start (runner.runFile time path now).2 other := by
  rw [Runner.workspace_runFile]
  cases due : runner.deed? time path now with
  | none => exact undisturbed
  | some deed =>
      obtain ⟨named, input, location, readable, leads, inside, place⟩ := Runner.deed?_sound due
      have differ : other ≠ deed.path := by
        rw [named]
        rintro rfl
        exact apart (Files.sameFile_self (own.found.read_eq.symm.trans readable))
      have stillApart : ¬ Files.SameFile now.files path other :=
        mt (own.shape.sameFile_iff path other).mp apart
      have written : Files.SameShape (deed.write now.files) now.files ∧
          Files.FindsAlike (deed.write now.files) now.files other := by
        unfold Deed.write
        split
        · exact ⟨.refl _, .refl _ _⟩
        · next spot written =>
            cases place spot written
            exact ⟨Files.Node.sameShape_put inside _,
              Files.findsAlike_put leads inside stillApart _⟩
      refine ⟨written.1.trans undisturbed.shape, written.2.trans undisturbed.found, ?_,
        undisturbed.faults⟩
      rw [← undisturbed.remembered]
      simp only [Option.map_some, Option.getD_some, Runner.commit, Runner.remember]
      split
      · cases now.cache with
        | none => rfl
        | some cache => simp [Cache.record, Keyed.get?_put_of_ne differ]
      · rfl

end Undisturbed

end Workspace

/-- The job of processing the file with a number, and when it takes its turn. -/
structure Job where
  index : Nat
  path : Bytes
  now : Nat

namespace Runner

/-- Does a job, and keeps its result under its number. -/
def take (runner : Runner) (ran : List Result × Workspace) (job : Job) :
    List Result × Workspace :=
  let done := runner.runFile job.now job.path ran.2
  (ran.1.set job.index done.1, done.2)

/-- The results before any job is done. -/
def pending (paths : List Bytes) : List Result :=
  paths.map fun _ => {}

/-- Processes files in the order of the jobs, and prints their texts. -/
def runJobs (runner : Runner) (capacity : Option Nat) (paths : List Bytes) (jobs : List Job)
    (workspace : Workspace) : Outcome :=
  runner.finish capacity (jobs.foldl runner.take (pending paths, workspace))

/-- The jobs of a run that takes the files in order. -/
def jobsInOrder (clock : Nat → Nat) (paths : List Bytes) : List Job :=
  paths.zipIdx.map fun entry => ⟨entry.2, entry.1, clock entry.2⟩

/-- The results of the files, as it seems at the start.  The clock gives the time of each
of them. -/
def outlook (runner : Runner) (clock : Nat → Nat) (paths : List Bytes) (start : Workspace) :
    List Result :=
  paths.zipIdx.map fun entry => (runner.runFile (clock entry.2) entry.1 start).1

/-- What is going to be changed for the files, as it seems at the start. -/
def deeds (runner : Runner) (clock : Nat → Nat) (paths : List Bytes) (start : Workspace) :
    List Deed :=
  paths.zipIdx.filterMap fun entry => runner.deed? (clock entry.2) entry.1 start

/-- A workspace after the deeds of jobs, as they seem at the start. -/
def commitAll (runner : Runner) (start : Workspace) (jobs : List Job) (workspace : Workspace) :
    Workspace :=
  jobs.foldl (fun workspace job =>
    ((runner.deed? job.now job.path start).map (runner.commit job.now workspace)).getD
      workspace) workspace

section Jobs

variable {runner : Runner} {start : Workspace}

/-- Processing files one after the other takes them in order. -/
theorem foldl_take_inOrder (runner : Runner) (clock : Nat → Nat) (paths : List Bytes)
    (done : List Result) (workspace : Workspace) :
    ((paths.zipIdx done.length).map fun entry =>
        Job.mk entry.2 entry.1 (clock entry.2)).foldl runner.take
        (done ++ pending paths, workspace) =
      (done ++ (runner.runFiles (fun turn => clock (turn + done.length)) paths workspace).1,
        (runner.runFiles (fun turn => clock (turn + done.length)) paths workspace).2) := by
  induction paths generalizing done workspace with
  | nil => rfl
  | cons path paths ih =>
      let ran := runner.runFile (clock done.length) path workspace
      have further := ih (done ++ [ran.1]) ran.2
      rw [List.length_append, List.length_singleton, List.append_assoc, List.append_assoc]
        at further
      rw [List.zipIdx_cons, List.map_cons, List.foldl_cons, runFiles, take]
      simpa [pending, ran, Nat.add_assoc, Nat.add_comm 1] using further

theorem run_eq_runJobs (runner : Runner) (capacity : Option Nat) (clock : Nat → Nat)
    (paths : List Bytes) (workspace : Workspace) :
    runner.run none capacity clock paths workspace =
      runner.runJobs capacity paths (jobsInOrder clock paths) workspace := by
  have ordered := foldl_take_inOrder runner clock paths [] workspace
  rw [runJobs, jobsInOrder, run]
  simp only [List.nil_append, List.length_nil, Nat.add_zero] at ordered
  rw [ordered]

/-- Each job has the result and does the deed that it would have had at the start. -/
theorem foldl_take_eq {jobs : List Job} {results : List Result} {workspace : Workspace}
    (undisturbed : ∀ job ∈ jobs, start.Undisturbed workspace job.path)
    (apart : jobs.Pairwise fun job other => ¬ Files.SameFile start.files job.path other.path) :
    jobs.foldl runner.take (results, workspace) =
      (jobs.foldl (fun results job =>
          results.set job.index (runner.runFile job.now job.path start).1) results,
        runner.commitAll start jobs workspace) := by
  -- The jobs still to be done stay undisturbed, so that each of them finds its file as it was.
  induction jobs generalizing results workspace with
  | nil => rfl
  | cons job jobs ih =>
      obtain ⟨own, others⟩ := List.forall_mem_cons.mp undisturbed
      obtain ⟨first, later⟩ := List.pairwise_cons.mp apart
      have still : ∀ other ∈ jobs,
          start.Undisturbed (runner.runFile job.now job.path workspace).2 other.path := by
        intro other member
        exact own.runFile (others other member) (first other member)
      rw [List.foldl_cons, take, ih still later, own.result_eq, workspace_runFile, own.deed?_eq]
      rfl

theorem foldl_set_zipIdx (result : Bytes × Nat → Result) (paths : List Bytes)
    (done : List Result) :
    (paths.zipIdx done.length).foldl (fun results entry => results.set entry.2 (result entry))
        (done ++ pending paths) = done ++ (paths.zipIdx done.length).map result := by
  induction paths generalizing done with
  | nil => rfl
  | cons path paths ih =>
      have further := ih (done ++ [result (path, done.length)])
      rw [List.length_append, List.length_singleton, List.append_assoc, List.append_assoc]
        at further
      rw [List.zipIdx_cons, List.foldl_cons]
      simpa [pending] using further

/-- Results that are kept by number are in the order of the paths. -/
theorem foldl_set_eq (result : Bytes × Nat → Result) {paths : List Bytes} {jobs : List Job}
    (all : (jobs.map fun job => (job.path, job.index)).Perm paths.zipIdx) :
    jobs.foldl (fun results job => results.set job.index (result (job.path, job.index)))
        (pending paths) = paths.zipIdx.map result := by
  have byEntry : jobs.foldl (fun results job =>
        results.set job.index (result (job.path, job.index))) (pending paths) =
      (jobs.map fun job => (job.path, job.index)).foldl
        (fun results entry => results.set entry.2 (result entry)) (pending paths) := by
    rw [List.foldl_map]
  rw [byEntry, all.foldl_eq']
  · exact foldl_set_zipIdx result paths []
  · intro entry member other otherMember results
    by_cases same : entry.2 = other.2
    · -- A number has one path.
      have path := List.mk_mem_zipIdx_iff_getElem?.mp (all.mem_iff.mp member)
      have otherPath := List.mk_mem_zipIdx_iff_getElem?.mp (all.mem_iff.mp otherMember)
      rw [same, otherPath, Option.some.injEq] at path
      rw [Prod.ext path.symm same]
    · exact List.set_comm _ _ same

end Jobs

/-- Each file takes its turn at the time the clock gives to its number. -/
def OnTime (clock : Nat → Nat) (jobs : List Job) : Prop :=
  ∀ job ∈ jobs, clock job.index = job.now

/-- The time at which the file with a number takes its turn. -/
def turn (jobs : List Job) (index : Nat) : Nat :=
  ((jobs.find? (·.index == index)).map (·.now)).getD 0

section Deeds

variable {runner : Runner} {start : Workspace} {clock : Nat → Nat} {paths : List Bytes}
  {jobs : List Job}

theorem onTime_inOrder (clock : Nat → Nat) (paths : List Bytes) :
    OnTime clock (jobsInOrder clock paths) := by
  intro job member
  obtain ⟨entry, -, rfl⟩ := List.mem_map.mp member
  rfl

theorem all_inOrder (clock : Nat → Nat) (paths : List Bytes) :
    ((jobsInOrder clock paths).map fun job => (job.path, job.index)).Perm paths.zipIdx := by
  rw [jobsInOrder, List.map_map]
  exact .of_eq (List.map_id _)

/-- A number has one job, so every list of jobs has a clock. -/
theorem onTime_turn (all : (jobs.map fun job => (job.path, job.index)).Perm paths.zipIdx) :
    OnTime (turn jobs) jobs := by
  intro job member
  have distinct : (jobs.map (·.index)).Nodup := by
    have numbers := (all.map Prod.snd).nodup_iff
    rw [List.map_map, List.zipIdx_map_snd] at numbers
    exact numbers.mpr List.nodup_range'
  unfold turn
  cases found : jobs.find? (·.index == job.index) with
  | none =>
      have differ := List.find?_eq_none.mp found job member
      simp at differ
  | some other =>
      have same : other.index = job.index := by simpa using List.find?_some found
      rw [List.inj_on_of_nodup_map distinct (List.mem_of_find?_eq_some found) member same]
      rfl

theorem files_commitAll (jobs : List Job) (workspace : Workspace) :
    (runner.commitAll start jobs workspace).files =
      (jobs.filterMap fun job => runner.deed? job.now job.path start).foldl
        (fun tree deed => deed.write tree) workspace.files := by
  unfold commitAll
  induction jobs generalizing workspace with
  | nil => rfl
  | cons job jobs ih =>
      rw [List.foldl_cons, ih, List.filterMap_cons]
      cases runner.deed? job.now job.path start with
      | none => rfl
      | some deed => rfl

theorem undated_remember (now : Nat) (cache : Option Cache) (deed : Deed) :
    (runner.remember now cache deed).map (·.undated) =
      runner.remember 0 (cache.map (·.undated)) deed := by
  unfold remember
  split
  · cases cache with
    | none => rfl
    | some cache => simp [Cache.undated_record]
  · rfl

theorem cache_commitAll (jobs : List Job) (workspace : Workspace) :
    (runner.commitAll start jobs workspace).cache.map (·.undated) =
      (jobs.filterMap fun job => runner.deed? job.now job.path start).foldl (runner.remember 0)
        (workspace.cache.map (·.undated)) := by
  unfold commitAll
  induction jobs generalizing workspace with
  | nil => rfl
  | cons job jobs ih =>
      rw [List.foldl_cons, ih, List.filterMap_cons]
      cases runner.deed? job.now job.path start with
      | none => rfl
      | some deed =>
          rw [List.foldl_cons, ← undated_remember job.now]
          rfl

theorem remember_comm {deed other : Deed} (separate : deed.Separate other)
    (runner : Runner) (now : Nat) (cache : Option Cache) :
    runner.remember now (runner.remember now cache deed) other =
      runner.remember now (runner.remember now cache other) deed := by
  unfold remember
  cases cache with
  | none => simp
  | some cache =>
      have swap := Cache.record_comm separate.path_ne cache now now other.output deed.output
        runner.digest
      split <;> split <;> simp [swap]

/-- Jobs for all paths do the deeds of the paths. -/
theorem perm_deeds (all : (jobs.map fun job => (job.path, job.index)).Perm paths.zipIdx)
    (onTime : OnTime clock jobs) :
    (jobs.filterMap fun job => runner.deed? job.now job.path start).Perm
      (runner.deeds clock paths start) := by
  have byEntry : (jobs.filterMap fun job => runner.deed? job.now job.path start) =
      (jobs.map fun job => (job.path, job.index)).filterMap fun entry =>
        runner.deed? (clock entry.2) entry.1 start := by
    rw [List.filterMap_map]
    apply List.filterMap_congr
    intro job member
    rw [Function.comp_apply, onTime job member]
  rw [byEntry]
  exact all.filterMap _

theorem apart_zipIdx
    (apart : paths.Pairwise fun path other => ¬ Files.SameFile start.files path other) :
    paths.zipIdx.Pairwise fun entry other => ¬ Files.SameFile start.files entry.1 other.1 := by
  have mapped : (paths.zipIdx.map Prod.fst).Pairwise fun path other =>
      ¬ Files.SameFile start.files path other := by
    rw [List.zipIdx_map_fst]
    exact apart
  exact List.pairwise_map.mp mapped

theorem separate_of_mem_deeds
    (apart : paths.Pairwise fun path other => ¬ Files.SameFile start.files path other)
    {deed other : Deed} (member : deed ∈ runner.deeds clock paths start)
    (otherMember : other ∈ runner.deeds clock paths start) (differ : deed ≠ other) :
    deed.Separate other := by
  obtain ⟨entry, entryMember, due⟩ := List.mem_filterMap.mp member
  obtain ⟨otherEntry, otherEntryMember, otherDue⟩ := List.mem_filterMap.mp otherMember
  have different : entry ≠ otherEntry := by
    rintro rfl
    exact differ (Option.some.inj (due.symm.trans otherDue))
  have symm : Std.Symm fun entry other : Bytes × Nat =>
      ¬ Files.SameFile start.files entry.1 other.1 :=
    ⟨fun _ _ apart same => apart same.symm⟩
  have apartEntries := (apart_zipIdx apart).forall entryMember otherEntryMember different
  obtain ⟨named, input, location, readable, leads, found, placed⟩ := deed?_sound due
  obtain ⟨otherNamed, text, elsewhere, -, otherLeads, otherFound, otherPlaced⟩ :=
    deed?_sound otherDue
  constructor
  · rw [named, otherNamed]
    intro same
    rw [← same] at apartEntries
    exact apartEntries (Files.sameFile_self readable)
  · intro place written other otherWritten
    cases placed place written
    cases otherPlaced other otherWritten
    apply Files.separate_of_files found otherFound
    rintro rfl
    exact apartEntries ⟨location, leads, otherLeads⟩

/-- The files and the entries of the cache are the same in any order of the jobs. -/
theorem commitAll_eq (runner : Runner)
    (apart : paths.Pairwise fun path other => ¬ Files.SameFile start.files path other)
    (all : (jobs.map fun job => (job.path, job.index)).Perm paths.zipIdx)
    (onTime : OnTime clock jobs) (workspace : Workspace) :
    (runner.commitAll start jobs workspace).files =
        (runner.deeds clock paths start).foldl (fun tree deed => deed.write tree)
          workspace.files ∧
      (runner.commitAll start jobs workspace).cache.map (·.undated) =
        (runner.deeds clock paths start).foldl (runner.remember 0)
          (workspace.cache.map (·.undated)) := by
  have perm : (jobs.filterMap fun job => runner.deed? job.now job.path start).Perm
      (runner.deeds clock paths start) := perm_deeds all onTime
  rw [files_commitAll, cache_commitAll]
  have separate : ∀ deed ∈ jobs.filterMap fun job => runner.deed? job.now job.path start,
      ∀ other ∈ jobs.filterMap fun job => runner.deed? job.now job.path start,
        deed ≠ other → deed.Separate other := by
    intro deed member other otherMember
    exact separate_of_mem_deeds apart (perm.mem_iff.mp member) (perm.mem_iff.mp otherMember)
  -- A deed commutes with itself, and with any other one because it is done elsewhere.
  constructor
  · apply perm.foldl_eq'
    intro deed member other otherMember tree
    by_cases same : deed = other
    · rw [same]
    · exact (separate deed member other otherMember same).write_comm tree
  · apply perm.foldl_eq'
    intro deed member other otherMember cache
    by_cases same : deed = other
    · rw [same]
    · exact remember_comm (separate deed member other otherMember same) runner 0 cache

/-- What a run gives, whatever the order of its jobs. -/
theorem runJobs_eq (runner : Runner) (capacity : Option Nat)
    (apart : paths.Pairwise fun path other => ¬ Files.SameFile start.files path other)
    (all : (jobs.map fun job => (job.path, job.index)).Perm paths.zipIdx)
    (onTime : OnTime clock jobs) :
    runner.runJobs capacity paths jobs start = runner.finish capacity
      (runner.outlook clock paths start, runner.commitAll start jobs start) := by
  have jobsApart : jobs.Pairwise fun job other =>
      ¬ Files.SameFile start.files job.path other.path := by
    have symm : ∀ {entry other : Bytes × Nat}, ¬ Files.SameFile start.files entry.1 other.1 →
        ¬ Files.SameFile start.files other.1 entry.1 := fun apart same => apart same.symm
    exact List.pairwise_map.mp ((all.pairwise_iff symm).mpr (apart_zipIdx apart))
  have results : jobs.foldl (fun results job =>
      results.set job.index (runner.runFile job.now job.path start).1) (pending paths) =
        runner.outlook clock paths start := by
    rw [outlook, ← foldl_set_eq _ all]
    apply List.foldl_ext
    intro results job member
    rw [onTime job member]
  rw [runJobs, foldl_take_eq (fun job _ => .refl start job.path) jobsApart, results]

end Deeds

/-- What the cache would go by for a path does not expire between two times, if files are
written at all. -/
def Steady (runner : Runner) (start : Workspace) (path : Bytes) (now later : Nat) : Prop :=
  runner.mode = .write → ∀ cache, start.cache = some cache →
    ∀ input, Files.read start.files path = .ok input →
      ∀ entry, cache.entries.get? path = some entry → entry.digest = runner.digest →
        entry.hash = contentHash input → cache.expired now entry = cache.expired later entry

section Steady

variable {runner : Runner} {start : Workspace} {path : Bytes} {now later : Nat}

theorem steady_iff_isFresh :
    runner.Steady start path now later ↔
      ∀ input, Files.read start.files path = .ok input →
        runner.isFresh start now path input = runner.isFresh start later path input := by
  unfold Steady isFresh Cache.fresh
  constructor
  · intro steady input readable
    by_cases writes : runner.mode = .write
    · cases held : start.cache with
      | none => rfl
      | some cache =>
          cases known : cache.entries.get? path with
          | none => simp [known]
          | some entry =>
              by_cases rules : entry.digest = runner.digest
              · by_cases hash : entry.hash = contentHash input
                · simp [known, steady writes cache held input readable entry known rules hash]
                · simp [known, beq_false_of_ne hash]
              · simp [known, beq_false_of_ne rules]
    · simp [beq_false_of_ne writes]
  · intro same writes cache held input readable entry known rules hash
    simpa [writes, held, known, rules, hash] using same input readable

/-- The result of a file tells whether the cache went by an entry. -/
theorem result_eq_iff_steady :
    (runner.runFile now path start).1 = (runner.runFile later path start).1 ↔
      runner.Steady start path now later := by
  rw [steady_iff_isFresh]
  cases readable : Files.read start.files path with
  | error failure =>
      unfold runFile
      rw [readable]
      simp
  | ok input =>
      have told : ∀ time, (runner.report time path input start).cached =
          runner.isFresh start time path input := by
        intro time
        unfold report
        split
        · next fresh => exact fresh.symm
        · next stale => exact (eq_false_of_ne_true stale).symm
      rw [runFile_of_read readable, runFile_of_read readable]
      constructor
      · intro same held holds
        cases holds
        rw [← told, ← told]
        exact congrArg Result.cached same
      · intro same
        simp only [report, same input rfl]

theorem Steady.deed?_eq (steady : runner.Steady start path now later) :
    runner.deed? now path start = runner.deed? later path start := by
  unfold deed?
  split
  · next input location readable leads =>
      rw [steady_iff_isFresh.mp steady input readable]
  · rfl

theorem steady_of_ageless (ageless : ∀ cache, start.cache = some cache → cache.maxAge ≤ 0) :
    runner.Steady start path now later := by
  intro _ cache held input _ entry _ _ _
  have old : ¬ 0 < cache.maxAge := by
    have limit := ageless cache held
    omega
  simp [Cache.expired, old]

variable {paths : List Bytes} {clock other : Nat → Nat}

theorem outlook_eq_iff :
    runner.outlook clock paths start = runner.outlook other paths start ↔
      ∀ entry ∈ paths.zipIdx, runner.Steady start entry.1 (clock entry.2) (other entry.2) := by
  rw [outlook, outlook, List.map_inj_left]
  exact forall₂_congr fun _ _ => result_eq_iff_steady

theorem deeds_eq (steady : ∀ entry ∈ paths.zipIdx,
      runner.Steady start entry.1 (clock entry.2) (other entry.2)) :
    runner.deeds clock paths start = runner.deeds other paths start := by
  apply List.filterMap_congr
  intro entry member
  exact (steady entry member).deed?_eq

end Steady

section AnyOrder

variable {runner : Runner} {clock : Nat → Nat} {paths : List Bytes} {jobs : List Job}
  {workspace : Workspace}

theorem paths_outlook (runner : Runner) (clock : Nat → Nat) (paths : List Bytes)
    (workspace : Workspace) :
    (runner.outlook clock paths workspace).map (·.path) = paths := by
  rw [outlook, List.map_map]
  simp only [Function.comp_def, path_runFile, List.zipIdx_map_fst]

theorem foldl_take_of_not_write (idle : runner.mode ≠ .write) (ran : List Result × Workspace)
    (jobs : List Job) : (jobs.foldl runner.take ran).2 = ran.2 := by
  induction jobs generalizing ran with
  | nil => rfl
  | cons job jobs ih =>
      have nothing : runner.deed? job.now job.path ran.2 = none := by
        unfold deed?
        split
        · simp [idle]
        · rfl
      rw [List.foldl_cons, ih, take, workspace_runFile, nothing]
      rfl

theorem printed_of_print (prints : runner.mode = .print) {capacity : Option Nat}
    {ran : List Result × Workspace} (succeeds : (runner.finish capacity ran).failure = none) :
    (runner.finish capacity ran).printed =
      (ran.1.filter (·.failure.isNone)).map (·.output) := by
  have texts : runner.printable ran.1 = (ran.1.filter (·.failure.isNone)).map (·.output) := by
    rw [printable, if_pos prints]
  have enough : (runner.printable ran.1).length ≤
      capacity.getD (runner.printable ran.1).length := by
    by_contra short
    have failed : (runner.finish capacity ran).failure = _ := if_neg short
    rw [succeeds] at failed
    cases failed
  rw [← texts]
  exact List.take_of_length_le enough

/-- When the files are different ones, a run has one result for each path whatever the
order of its jobs, and these are the same as in the order of the paths exactly when no
entry that the cache would go by expires between the times of a file in both orders.  Then
the run also leaves the same files and the same entries but for their times, and prints the
same.  What is printed are the texts of the files that did not fail, in the order of the
paths.  Unless files are written, nothing changes; without an age limit nothing expires. -/
theorem run_in_any_order (runner : Runner) (capacity : Option Nat) (clock : Nat → Nat)
    (apart : paths.Pairwise fun path other => ¬ Files.SameFile workspace.files path other)
    (all : (jobs.map fun job => (job.path, job.index)).Perm paths.zipIdx) :
    let ordered := runner.run none capacity clock paths workspace
    let outcome := runner.runJobs capacity paths jobs workspace
    outcome.results.map (·.path) = paths ∧
      (outcome.results = ordered.results ↔
        ∀ job ∈ jobs, runner.Steady workspace job.path job.now (clock job.index)) ∧
      (outcome.results = ordered.results →
        outcome.workspace.files = ordered.workspace.files ∧
        outcome.workspace.cache.map (·.undated) = ordered.workspace.cache.map (·.undated) ∧
        outcome.printed = ordered.printed ∧ outcome.failure = ordered.failure) ∧
      (runner.mode = .print → outcome.failure = none →
        outcome.printed = (outcome.results.filter (·.failure.isNone)).map (·.output)) ∧
      (runner.mode ≠ .write →
        outcome.workspace = workspace ∧ outcome.results = ordered.results) ∧
      ((∀ cache, workspace.cache = some cache → cache.maxAge ≤ 0) →
        outcome.results = ordered.results) := by
  intro ordered outcome
  have onTime := onTime_turn all
  have ran : outcome = _ := runJobs_eq runner capacity apart all onTime
  have ranInOrder : ordered = _ :=
    (run_eq_runJobs runner capacity clock paths workspace).trans
      (runJobs_eq runner capacity apart (all_inOrder clock paths) (onTime_inOrder clock paths))
  have results : outcome.results = runner.outlook (turn jobs) paths workspace :=
    congrArg Outcome.results ran
  have resultsInOrder : ordered.results = runner.outlook clock paths workspace :=
    congrArg Outcome.results ranInOrder
  have byJob : (∀ job ∈ jobs, runner.Steady workspace job.path job.now (clock job.index)) ↔
      ∀ entry ∈ paths.zipIdx,
        runner.Steady workspace entry.1 (turn jobs entry.2) (clock entry.2) := by
    simp only [← all.mem_iff, List.forall_mem_map]
    refine forall₂_congr fun job member => ?_
    rw [onTime job member]
  have same : outcome.results = ordered.results ↔
      ∀ job ∈ jobs, runner.Steady workspace job.path job.now (clock job.index) := by
    rw [results, resultsInOrder, outlook_eq_iff, byJob]
  refine ⟨?_, same, ?_, fun prints => printed_of_print prints, ?_, ?_⟩
  · rw [results, paths_outlook]
  · intro equal
    have deeds := deeds_eq (byJob.mp (same.mp equal))
    have committed := commitAll_eq runner apart all onTime workspace
    have committedInOrder := commitAll_eq runner apart (all_inOrder clock paths)
      (onTime_inOrder clock paths) workspace
    rw [deeds] at committed
    have outlook : runner.outlook (turn jobs) paths workspace = _ :=
      results.symm.trans (equal.trans resultsInOrder)
    rw [ran, ranInOrder, outlook]
    exact ⟨committed.1.trans committedInOrder.1.symm, committed.2.trans committedInOrder.2.symm,
      rfl, rfl⟩
  · intro idle
    refine ⟨foldl_take_of_not_write idle (pending paths, workspace) jobs, same.mpr ?_⟩
    exact fun job _ writes => absurd writes idle
  · intro ageless
    exact same.mpr fun job _ => steady_of_ageless ageless

/-- A file with an entry of other rules, a file behind a link, and a file that takes one
byte only.  Entries expire. -/
def office : Workspace where
  files := .folder [(bytes "a", .file (bytes "hi")),
    (bytes "d", .folder [(bytes "e", .file (bytes "ho"))]), (bytes "f", .file (bytes "hum")),
    (bytes "l", .link (bytes "d/e"))]
  cache := some
    { folder := bytes "c", maxAge := 10, entries := [(bytes "a", ⟨[], bytes "old", 3⟩)] }
  faults path := if path = bytes "f" then some ⟨.filling 1, .noSpace⟩ else none

/-- The jobs for `a`, `gone`, `l` and `f`, the last one first. -/
def backwards : List Job :=
  [⟨3, bytes "f", 5⟩, ⟨2, bytes "l", 5⟩, ⟨1, bytes "gone", 8⟩, ⟨0, bytes "a", 19⟩]

/-- The paths of the jobs, in order. -/
def officePaths : List Bytes :=
  [bytes "a", bytes "gone", bytes "l", bytes "f"]

theorem run_in_any_order_backwards :
    (officePaths.Pairwise fun path other => ¬ Files.SameFile office.files path other) ∧
      (backwards.map fun job => (job.path, job.index)).Perm officePaths.zipIdx ∧
      let ordered := exclaim.run none none (· + 4) officePaths office
      let outcome := exclaim.runJobs none officePaths backwards office
      outcome.results = ordered.results ∧
        outcome.workspace.files = ordered.workspace.files ∧
        outcome.workspace.cache.map (·.undated) = ordered.workspace.cache.map (·.undated) ∧
        Files.read outcome.workspace.files (bytes "l") = .ok (bytes "ho!") ∧
        Files.read outcome.workspace.files (bytes "f") = .ok (bytes "h") ∧
        outcome.workspace.cache.bind (·.entries.get? (bytes "f")) = none ∧
        (outcome.workspace.cache.bind (·.entries.get? (bytes "l"))).map (·.recordedAt) =
          some 5 ∧
        (ordered.workspace.cache.bind (·.entries.get? (bytes "l"))).map (·.recordedAt) =
          some 6 := by
  have apart : officePaths.Pairwise fun path other => ¬ Files.SameFile office.files path other := by
    decide
  have all : (backwards.map fun job => (job.path, job.index)).Perm officePaths.zipIdx := by decide
  obtain ⟨-, same, alike, -⟩ := run_in_any_order exclaim none (· + 4) apart all
  -- The only entry is one of other rules, so that nobody minds when it expires.
  have steady : ∀ job ∈ backwards, exclaim.Steady office job.path job.now (job.index + 4) := by
    rintro job member - cache held input - entry remembered rules -
    cases held
    simp only [backwards, List.mem_cons, List.not_mem_nil, or_false] at member
    rcases member with rfl | rfl | rfl | rfl
    · cases remembered
    · cases remembered
    · cases remembered
    · cases remembered
      cases rules
  obtain ⟨files, cache, -⟩ := alike (same.mpr steady)
  exact ⟨apart, all, same.mpr steady, files, cache, rfl, rfl, rfl, rfl, rfl⟩

/-- A file that was processed and one that was not.  Entries expire. -/
def aging : Workspace where
  files := .folder [(bytes "a", .file (bytes "hi!")), (bytes "b", .file (bytes "ho"))]
  cache := some
    { folder := bytes "c"
      maxAge := 10
      entries := [(bytes "a", ⟨contentHash (bytes "hi!"), exclaim.digest, 0⟩)] }

/-- The second job starts when the first one has taken so long that the entry has expired.
So the processed file is left alone only when it comes first. -/
theorem run_expires_in_between :
    let paths := [bytes "a", bytes "b"]
    let clock := fun turn => 5 + 10 * turn
    let jobs : List Job := [⟨1, bytes "b", clock 0⟩, ⟨0, bytes "a", clock 1⟩]
    let ordered := exclaim.run none none clock paths aging
    let outcome := exclaim.runJobs none paths jobs aging
    (paths.Pairwise fun path other => ¬ Files.SameFile aging.files path other) ∧
      (jobs.map fun job => (job.path, job.index)).Perm paths.zipIdx ∧
      outcome.results ≠ ordered.results ∧
      Files.read ordered.workspace.files (bytes "a") = .ok (bytes "hi!") ∧
      Files.read outcome.workspace.files (bytes "a") = .ok (bytes "hi!!") := by
  intro paths clock jobs ordered outcome
  have skipped : outcome.results.map (·.cached) ≠ ordered.results.map (·.cached) := by
    decide +kernel
  exact ⟨by decide, by decide, mt (congrArg (List.map (·.cached))) skipped, by decide +kernel,
    by decide +kernel⟩

end AnyOrder

end Runner

end Stencil
