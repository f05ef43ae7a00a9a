import Stencil.Proofs.CacheStore
import Stencil.Proofs.LinkReplacement

/-!
# What is remembered is what is stored

An open cache is used for a while: files are recorded and forgotten, the entries are
stored, which may fail at any step, and the cache is opened anew.  Throughout, the
folder is there and its file can be read.  While nothing has changed since the entries
were stored, they are the entries in the file.
-/

namespace Stencil.Cache

section Stored

variable {tree : Files.Node} {path : Bytes} {entries : Keyed Entry}

theorem not_leadsToFolder_of_stored (readable : stored tree path = .ok entries) :
    ¬ Files.LeadsToFolder tree path := by
  rintro ⟨others, found⟩
  simp [stored, found] at readable

theorem enough_links_of_stored (readable : stored tree path = .ok entries) :
    Files.resolve tree true path ≠ .error .tooManyLinks := by
  intro tooMany
  simp [stored, Files.find, tooMany, bind, Except.bind] at readable

end Stored

/-- A cache that is open, and the files it is stored among. -/
structure Opened where
  cache : Cache
  tree : Files.Node

/-- What is done with an open cache. -/
inductive Operation where
  | record (now : Nat) (path content digest : Bytes)
  | forget (path : Bytes)
  | clear
  | save
  | saveFailing (fault : Fault)
  /-- The cache is opened anew. -/
  | reopen (maxAge : Int)

namespace Opened

/-- What an operation makes of an open cache. -/
def after (opened : Opened) : Operation → Opened
  | .record now path content digest =>
      { opened with cache := opened.cache.record now path content digest }
  | .forget path => { opened with cache := opened.cache.forget path }
  | .clear => { opened with cache := opened.cache.clear }
  | .save =>
      let saved := opened.cache.save opened.tree
      ⟨saved.cache, saved.tree⟩
  | .saveFailing fault =>
      let saved := opened.cache.saveFailing fault opened.tree
      ⟨saved.cache, saved.tree⟩
  | .reopen maxAge =>
      match load opened.cache.folder maxAge opened.tree with
      | .ok (cache, tree) => ⟨cache, tree⟩
      | .error _ => opened

/-- What a history makes of an open cache.  The latest operation comes first. -/
def afterAll (start : Opened) : List Operation → Opened
  | [] => start
  | operation :: earlier => (start.afterAll earlier).after operation

/-- The cache can be stored and opened, and an unchanged one is stored. -/
structure Synced (opened : Opened) : Prop where
  folder : Files.LeadsToFolder opened.tree opened.cache.folder
  readable : ∃ entries, stored opened.tree opened.cache.file = .ok entries
  agrees : opened.cache.dirty = false →
    stored opened.tree opened.cache.file = .ok opened.cache.entries

end Opened

section Save

variable {cache : Cache} {tree : Files.Node}

theorem save_failed {failure : Failure} (fails : (cache.save tree).failure = some failure) :
    (cache.save tree).cache = cache ∧ (cache.save tree).tree = tree := by
  have saves := saves_save cache tree
  generalize cache.save tree = saved at saves fails ⊢
  cases saves with
  | unchanged clean => exact ⟨rfl, rfl⟩
  | failed dirty failure => exact ⟨rfl, rfl⟩
  | created dirty top free => cases fails
  | replaced dirty top taken noFolder => cases fails

theorem cache_save (succeeds : (cache.save tree).failure = none) :
    (cache.save tree).cache = { cache with dirty := false } := by
  have saves := saves_save cache tree
  generalize cache.save tree = saved at saves succeeds ⊢
  cases saves with
  | unchanged clean => rw [← clean]
  | failed dirty failure => cases succeeds
  | created dirty top free => rfl
  | replaced dirty top taken noFolder => rfl

/-- What is put in the place of the file, or of a link that leads to no folder, is read
from then on, and the folders stay. -/
theorem replaced_sound {location : Files.Location} {entries : Keyed Entry}
    (leads : Files.LeadsToFolder tree cache.folder)
    (readable : stored tree cache.file = .ok entries)
    (taken : Files.resolve tree false cache.file = .ok (.taken location))
    (noFolder : ∀ others, tree.get? location ≠ some (.folder others)) (content : Bytes) :
    Files.LeadsToFolder (tree.put location (.file content)) cache.folder ∧
      Files.read (tree.put location (.file content)) cache.file = .ok content := by
  have top := leads.top
  obtain ⟨node, found⟩ := Files.resolve_sound top taken
  cases node with
  | folder others => exact absurd found (noFolder others)
  | file old =>
      constructor
      · exact leads.of_sameShape (Files.Node.sameShape_put found content)
      · exact Files.read_put (Files.resolve_of_file top taken found) found content
  | link target =>
      have blind := not_leadsToFolder_of_stored readable
      have enough := enough_links_of_stored readable
      constructor
      · exact leads.put_link taken found blind enough content
      · exact Files.read_put_link top taken found blind enough content

/-- Storing the entries keeps the folder, and they are in the file then. -/
theorem save_sound {entries : Keyed Entry} (leads : Files.LeadsToFolder tree cache.folder)
    (readable : stored tree cache.file = .ok entries)
    (agrees : cache.dirty = false → stored tree cache.file = .ok cache.entries)
    (succeeds : (cache.save tree).failure = none) :
    Files.LeadsToFolder (cache.save tree).tree cache.folder ∧
      stored (cache.save tree).tree cache.file = .ok cache.entries := by
  have saves := saves_save cache tree
  generalize cache.save tree = saved at saves succeeds ⊢
  cases saves with
  | unchanged clean => exact ⟨leads, agrees clean⟩
  | failed dirty failure => cases succeeds
  | created dirty top free =>
      constructor
      · exact leads.grow (Files.grows_put_free top free _)
      · apply Holds.stored_eq
        exact ⟨_, Files.read_put_free top free _, decode?_encode cache.entries⟩
  | replaced dirty top taken noFolder =>
      obtain ⟨still, reads⟩ := replaced_sound leads readable taken noFolder (encode cache.entries)
      exact ⟨still, Holds.stored_eq ⟨_, reads, decode?_encode cache.entries⟩⟩

theorem draft?_sound {suffix : Bytes} {draft : Files.Location}
    (found : cache.draft? suffix tree = some draft) :
    ∃ folder name, draft = folder ++ [name] ∧ Files.IsFolder tree folder ∧
      tree.get? draft = none := by
  unfold draft? at found
  split at found
  · next folder leads =>
      dsimp only at found
      split at found
      · next entries inside free =>
          cases found
          exact ⟨folder, _, rfl, ⟨entries, inside⟩, free⟩
      · cases found
  · cases found

/-- A step that fails leaves the cache and the files as they were. -/
theorem saveFailing_same (fault : Fault) (cache : Cache) (tree : Files.Node) :
    (cache.saveFailing fault tree).cache = cache ∧
      (cache.saveFailing fault tree).failure.isSome = cache.dirty ∧
      Files.Same (cache.saveFailing fault tree).tree tree := by
  unfold saveFailing
  dsimp only
  cases dirty : cache.dirty with
  | false => exact ⟨rfl, rfl, .refl tree⟩
  | true =>
      rw [if_neg (by simp)]
      cases made : cache.draft? fault.suffix tree with
      | none => exact ⟨rfl, rfl, .refl tree⟩
      | some draft =>
          obtain ⟨folder, name, rfl, inside, free⟩ := draft?_sound made
          have same := Files.same_erase_put inside free
            (.file ((encode cache.entries).take fault.written))
          cases fault.step with
          | creating => exact ⟨rfl, rfl, .refl tree⟩
          | encoding => exact ⟨rfl, rfl, same⟩
          | closing => exact ⟨rfl, rfl, same⟩
          | replacing => exact ⟨rfl, rfl, same⟩

end Save

namespace Opened

variable {opened : Opened}

theorem synced_of_load {folder : Bytes} {maxAge : Int} {before after : Files.Node} {cache : Cache}
    (top : Files.IsFolder before []) (loaded : load folder maxAge before = .ok (cache, after)) :
    Synced ⟨cache, after⟩ := by
  obtain ⟨made, entries, readable, rfl⟩ := load_eq_ok loaded
  constructor
  · exact Files.leadsToFolder_makeFolders top made
  · exact ⟨entries, readable⟩
  · intro _
    exact readable

/-- The cache can always be opened anew, and what is stored is what is found. -/
theorem Synced.load_eq (synced : opened.Synced) {entries : Keyed Entry}
    (readable : stored opened.tree opened.cache.file = .ok entries) (maxAge : Int) :
    load opened.cache.folder maxAge opened.tree =
      .ok ({ folder := opened.cache.folder, maxAge, entries }, opened.tree) := by
  have found : stored opened.tree (Path.join opened.cache.folder fileName) = .ok entries :=
    readable
  unfold load
  rw [synced.folder.makeFolders_eq]
  dsimp only [file]
  rw [found]

theorem Synced.of_dirty (synced : opened.Synced) {cache : Cache}
    (same : cache.folder = opened.cache.folder) (dirty : cache.dirty = true) :
    Synced { opened with cache } := by
  have sameFile : cache.file = opened.cache.file := congrArg (Path.join · fileName) same
  constructor
  · rw [same]
    exact synced.folder
  · rw [sameFile]
    exact synced.readable
  · intro clean
    exact Bool.noConfusion (clean.symm.trans dirty)

theorem Synced.of_same (synced : opened.Synced) {tree : Files.Node}
    (same : Files.Same tree opened.tree) : Synced { opened with tree } := by
  have unchanged := stored_of_findsAlike (same.findsAlike opened.cache.file)
  constructor
  · exact synced.folder.of_sameShape same.sameShape
  · obtain ⟨entries, readable⟩ := synced.readable
    exact ⟨entries, unchanged.trans readable⟩
  · intro clean
    exact unchanged.trans (synced.agrees clean)

theorem Synced.save_sound (synced : opened.Synced)
    (succeeds : (opened.cache.save opened.tree).failure = none) :
    Files.LeadsToFolder (opened.cache.save opened.tree).tree opened.cache.folder ∧
      stored (opened.cache.save opened.tree).tree opened.cache.file =
        .ok opened.cache.entries := by
  obtain ⟨entries, readable⟩ := synced.readable
  exact Cache.save_sound synced.folder readable synced.agrees succeeds

/-- Entries that were stored are found when the cache is opened anew. -/
theorem Synced.load_save (synced : opened.Synced)
    (succeeds : (opened.cache.save opened.tree).failure = none) (limit : Int) :
    load opened.cache.folder limit (opened.cache.save opened.tree).tree =
      .ok ({ folder := opened.cache.folder, maxAge := limit, entries := opened.cache.entries },
        (opened.cache.save opened.tree).tree) := by
  obtain ⟨leads, storedAll⟩ := synced.save_sound succeeds
  have kept : Synced { opened with tree := (opened.cache.save opened.tree).tree } :=
    ⟨leads, ⟨_, storedAll⟩, fun _ => storedAll⟩
  exact kept.load_eq storedAll limit

/-- Storing fails only where the path of the file leads nowhere. -/
theorem Synced.save_succeeds_iff (synced : opened.Synced) :
    (opened.cache.save opened.tree).failure = none ↔
      (opened.cache.dirty = true →
        ∃ spot, Files.resolve opened.tree false opened.cache.file = .ok spot) := by
  obtain ⟨others, found⟩ := synced.folder
  obtain ⟨entries, readable⟩ := synced.readable
  have top := synced.folder.top
  unfold save
  cases dirty : opened.cache.dirty with
  | false => simp
  | true =>
      simp only [found, Bool.not_true, Bool.false_eq_true, if_false, true_implies]
      cases leads : Files.resolve opened.tree false opened.cache.file with
      | error refusal => simp
      | ok spot =>
          cases spot with
          | free location =>
              obtain ⟨absent, -⟩ := Files.resolve_sound top leads
              simp [absent]
          | taken location =>
              have noFolder : ∀ inside, opened.tree.get? location ≠ some (.folder inside) := by
                intro inside isFolder
                apply not_leadsToFolder_of_stored readable
                obtain ⟨relative, follows⟩ := Files.resolve_eq_ok_iff.mp leads
                refine Files.leadsToFolder_iff_resolve.mpr ⟨location, ⟨inside, isFolder⟩, ?_⟩
                exact Files.resolve_eq_ok_iff.mpr
                  ⟨relative, follows.of_unlinked top (by simp [isFolder])⟩
              dsimp only
              split
              · next inside isFolder => exact absurd isFolder (noFolder inside)
              · simp

theorem Synced.after_save (synced : opened.Synced) : (opened.after .save).Synced := by
  cases fails : (opened.cache.save opened.tree).failure with
  | some failure =>
      obtain ⟨sameCache, sameTree⟩ := save_failed fails
      rw [after, sameCache, sameTree]
      exact synced
  | none =>
      obtain ⟨leads, storedAll⟩ := synced.save_sound fails
      rw [after, cache_save fails]
      exact ⟨leads, ⟨_, storedAll⟩, fun _ => storedAll⟩

theorem Synced.after (synced : opened.Synced) (operation : Operation) :
    (opened.after operation).Synced := by
  cases operation with
  | record now path content digest => exact synced.of_dirty rfl rfl
  | forget path =>
      rw [Opened.after, forget]
      split
      · exact synced.of_dirty rfl rfl
      · exact synced
  | clear => exact synced.of_dirty rfl rfl
  | save => exact synced.after_save
  | saveFailing fault =>
      obtain ⟨sameCache, -, same⟩ := saveFailing_same fault opened.cache opened.tree
      rw [Opened.after, sameCache]
      exact synced.of_same same
  | reopen maxAge =>
      obtain ⟨entries, readable⟩ := synced.readable
      rw [Opened.after, synced.load_eq readable]
      exact ⟨synced.folder, ⟨entries, readable⟩, fun _ => readable⟩

theorem Synced.afterAll (synced : opened.Synced) (operations : List Operation) :
    (opened.afterAll operations).Synced := by
  induction operations with
  | nil => exact synced
  | cons operation earlier ih => exact ih.after operation

theorem Synced.folder_after (synced : opened.Synced) (operation : Operation) :
    (opened.after operation).cache.folder = opened.cache.folder := by
  cases operation with
  | record now path content digest => rfl
  | forget path =>
      rw [Opened.after, forget]
      split <;> rfl
  | clear => rfl
  | save =>
      cases fails : (opened.cache.save opened.tree).failure with
      | some failure => rw [Opened.after, (save_failed fails).1]
      | none => rw [Opened.after, cache_save fails]
  | saveFailing fault => rw [Opened.after, (saveFailing_same fault _ _).1]
  | reopen maxAge =>
      obtain ⟨entries, readable⟩ := synced.readable
      rw [Opened.after, synced.load_eq readable]

theorem Synced.folder_afterAll (synced : opened.Synced) (operations : List Operation) :
    (opened.afterAll operations).cache.folder = opened.cache.folder := by
  induction operations with
  | nil => rfl
  | cons operation earlier ih =>
      rw [Opened.afterAll, (synced.afterAll earlier).folder_after, ih]

end Opened

/-- Whatever was done with an open cache, an unchanged one is stored as it is.  Storing it
fails only where the path of its file leads nowhere.  When it succeeds, the folder can be
opened again and has the same entries; when it fails, be it at any step, the cache is as
changed as before and all files are what they were. -/
theorem entries_persist {folder : Bytes} {maxAge : Int} {before tree : Files.Node} {cache : Cache}
    (top : Files.IsFolder before []) (loaded : load folder maxAge before = .ok (cache, tree))
    (operations : List Operation) :
    let now := (Opened.mk cache tree).afterAll operations
    let saved := now.cache.save now.tree
    (now.cache.dirty = false → stored now.tree now.cache.file = .ok now.cache.entries) ∧
      (saved.failure = none ↔ (now.cache.dirty = true →
        ∃ spot, Files.resolve now.tree false now.cache.file = .ok spot)) ∧
      (saved.failure = none → saved.cache = { now.cache with dirty := false } ∧
        ∀ limit, load folder limit saved.tree =
          .ok ({ folder, maxAge := limit, entries := now.cache.entries }, saved.tree)) ∧
      (saved.failure ≠ none → saved.cache = now.cache ∧ saved.tree = now.tree) ∧
      ∀ fault,
        let failing := now.cache.saveFailing fault now.tree
        failing.failure.isSome = now.cache.dirty ∧ failing.cache = now.cache ∧
          stored failing.tree now.cache.file = stored now.tree now.cache.file ∧
          ∀ path, Files.read failing.tree path = Files.read now.tree path := by
  have start := Opened.synced_of_load top loaded
  have sameFolder : ((Opened.mk cache tree).afterAll operations).cache.folder = folder := by
    obtain ⟨-, entries, -, rfl⟩ := load_eq_ok loaded
    exact start.folder_afterAll operations
  have synced := start.afterAll operations
  generalize (Opened.mk cache tree).afterAll operations = now at synced sameFolder
  subst sameFolder
  refine ⟨synced.agrees, synced.save_succeeds_iff, ?_, ?_, ?_⟩
  · intro succeeds
    exact ⟨cache_save succeeds, synced.load_save succeeds⟩
  · intro fails
    obtain ⟨failure, failed⟩ := Option.ne_none_iff_exists'.mp fails
    exact save_failed failed
  · intro fault
    obtain ⟨sameCache, reported, same⟩ := saveFailing_same fault now.cache now.tree
    exact ⟨reported, sameCache, stored_of_findsAlike (same.findsAlike _),
      fun path => (same.findsAlike path).read_eq⟩

/-- A folder behind a link, in which a link leads nowhere. -/
def linkedStore : Files.Node :=
  .folder [(bytes "c", .link (bytes "store")),
    (bytes "store", .folder [(fileName, .link (bytes "gone"))])]

/-- Two files are recorded and stored, one is forgotten, and storing that fails. -/
def busy : List Operation :=
  [.saveFailing ⟨.encoding, .ofText (bytes "disk full"), bytes "17", 20⟩,
    .forget (bytes "a.txt"), .save,
    .record 2 (bytes "b.txt") (bytes "two") (bytes "rules"),
    .record 1 (bytes "a.txt") (bytes "one") (bytes "rules")]

theorem entries_persist_linked :
    Files.IsFolder linkedStore [] ∧
      load (bytes "c/") 0 linkedStore = .ok ({ folder := bytes "c/" }, linkedStore) ∧
      let now := (Opened.mk { folder := bytes "c/" } linkedStore).afterAll busy
      let saved := now.cache.save now.tree
      now.cache.dirty = true ∧ now.cache.entries.map (·.1) = [bytes "b.txt"] ∧
        saved.failure = none ∧
        ∀ limit, load (bytes "c/") limit saved.tree =
          .ok ({ folder := bytes "c/", maxAge := limit, entries := now.cache.entries },
            saved.tree) := by
  have top : Files.IsFolder linkedStore [] := by decide
  have loaded : load (bytes "c/") 0 linkedStore = .ok ({ folder := bytes "c/" }, linkedStore) := rfl
  have persists := entries_persist top loaded busy
  have succeeds : (((Opened.mk { folder := bytes "c/" } linkedStore).afterAll busy).cache.save
      ((Opened.mk { folder := bytes "c/" } linkedStore).afterAll busy).tree).failure = none := rfl
  exact ⟨top, loaded, rfl, rfl, succeeds, (persists.2.2.1 succeeds).2⟩

end Stencil.Cache
