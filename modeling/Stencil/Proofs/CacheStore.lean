import Stencil.Cache.Store
import Stencil.Proofs.FileCreation

/-!
# A stored cache is loaded again

The text of the entries is read back field by field.  Storing the entries leaves
every other file as it is, so what is stored is what the next load finds.
-/

namespace Stencil.Cache

section Fields

theorem field?_escape (text rest : Bytes) :
    field? (escape text ++ 0 :: rest) = some (text, rest) := by
  induction text with
  | nil =>
      cases rest with
      | nil => rfl
      | cons b rest => rfl
  | cons b text ih =>
      rw [escape]
      split
      · next zero =>
          subst zero
          simp [field?, ih]
      · next notZero =>
          split
          · next one =>
              subst one
              simp [field?, ih]
          · next notOne =>
              obtain ⟨c, tail, spelled⟩ : ∃ c tail, escape text ++ 0 :: rest = c :: tail :=
                List.exists_cons_of_ne_nil (by simp)
              rw [spelled] at ih
              simp [field?, spelled, notZero, notOne, ih]

theorem number_numeral (n : Nat) : number (numeral n) = n := by
  induction n using Nat.strongRecOn with
  | ind n ih =>
      rw [numeral]
      split
      · next zero => rw [zero]; rfl
      · next positive =>
          have smaller : n / 256 < n := Nat.div_lt_self (Nat.pos_of_ne_zero positive) (by omega)
          have rest := ih _ smaller
          simp only [number, List.foldr_cons] at rest ⊢
          rw [rest]
          simp
          omega

theorem entryFrom?_entryText (path : Bytes) (entry : Entry) (rest : Bytes) :
    entryFrom? (entryText path entry ++ rest) = some ((path, entry), rest) := by
  simp [entryFrom?, entryText, field?_escape, number_numeral]

theorem entriesFrom?_entryTexts (entries : Keyed Entry) {budget : Nat}
    (enough : entries.length ≤ budget) :
    entriesFrom? budget (entries.flatMap fun (path, entry) => entryText path entry) =
      some entries := by
  induction entries generalizing budget with
  | nil => cases budget <;> rfl
  | cons first entries ih =>
      obtain ⟨path, entry⟩ := first
      obtain ⟨budget, rfl⟩ : ∃ less, budget = less + 1 :=
        Nat.exists_eq_add_one.mpr (Nat.lt_of_lt_of_le (by simp) enough)
      have filled : entryText path entry ≠ [] := by simp [entryText]
      rw [List.flatMap_cons, entriesFrom?, entryFrom?_entryText]
      · simp [ih (Nat.le_of_succ_le_succ enough)]
      · simp [filled]

theorem length_le_entryTexts (entries : Keyed Entry) :
    entries.length ≤ (entries.flatMap fun (path, entry) => entryText path entry).length := by
  induction entries with
  | nil => simp
  | cons first entries ih =>
      obtain ⟨path, entry⟩ := first
      have filled : 0 < (entryText path entry).length :=
        List.length_pos_iff.mpr (by simp [entryText])
      rw [List.flatMap_cons, List.length_cons, List.length_append]
      dsimp only at ih ⊢
      omega

/-- The stored text of entries stores these entries. -/
theorem decode?_encode (entries : Keyed Entry) : decode? (encode entries) = some entries := by
  have enough : entries.length ≤ (encode entries).length := by
    rw [encode, List.length_append]
    exact Nat.le_trans (length_le_entryTexts entries) (Nat.le_add_left _ _)
  have headed : heading.isPrefixOf (encode entries) = true :=
    List.isPrefixOf_iff_prefix.mpr ⟨_, rfl⟩
  rw [decode?, if_pos headed]
  rw [show (encode entries).drop heading.length =
    entries.flatMap fun (path, entry) => entryText path entry from List.drop_left]
  exact entriesFrom?_entryTexts entries enough

end Fields

/-- The file with the entries can be read. -/
def Holds (tree : Files.Node) (path : Bytes) (entries : Keyed Entry) : Prop :=
  ∃ content, Files.read tree path = .ok content ∧ decode? content = some entries

section Store

variable {tree : Files.Node} {path : Bytes} {entries : Keyed Entry}

theorem Holds.stored_eq (holds : Holds tree path entries) : stored tree path = .ok entries := by
  obtain ⟨content, readable, decoded⟩ := holds
  simp [stored, Files.read_eq_ok_iff.mp readable, decoded]

/-- Entries are stored only in a file that can be read. -/
theorem holds_of_stored (storedOk : stored tree path = .ok entries) (filled : entries ≠ []) :
    Holds tree path entries := by
  unfold stored at storedOk
  split at storedOk
  · cases storedOk
    exact absurd rfl filled
  · cases storedOk
  · next content found =>
      split at storedOk
      · next decoded =>
          cases storedOk
          exact ⟨content, Files.read_eq_ok_iff.mpr found, decoded⟩
      · cases storedOk
  · cases storedOk

theorem stored_of_findsAlike {left right : Files.Node}
    (alike : Files.FindsAlike left right path) : stored left path = stored right path := by
  unfold stored
  cases alike with
  | same equal => rw [equal]
  | folder leftFound rightFound => rw [leftFound, rightFound]

/-- Writing a file that is apart leaves the stored entries as they are. -/
theorem stored_write_of_apart {after : Files.Node} {other old content : Bytes}
    (readable : Files.read tree other = .ok old)
    (written : Files.write other content tree = .ok after)
    (apart : ¬ Files.SameFile tree other path) : stored after path = stored tree path := by
  obtain ⟨location, leads, found, rfl⟩ := Files.write_over readable written
  exact stored_of_findsAlike (Files.findsAlike_put leads found apart content)

end Store

section Save

variable {cache : Cache} {tree : Files.Node}

/-- What storing a cache can do. -/
inductive Saves (cache : Cache) (tree : Files.Node) : Saved → Prop where
  | unchanged (clean : cache.dirty = false) : Saves cache tree ⟨cache, tree, none⟩
  | failed (dirty : cache.dirty = true) (failure : Failure) :
      Saves cache tree ⟨cache, tree, some failure⟩
  | created {location : Files.Location} (dirty : cache.dirty = true)
      (top : Files.IsFolder tree [])
      (free : Files.resolve tree false cache.file = .ok (.free location)) :
      Saves cache tree
        ⟨{ cache with dirty := false }, tree.put location (.file (encode cache.entries)), none⟩
  | replaced {location : Files.Location} (dirty : cache.dirty = true)
      (top : Files.IsFolder tree [])
      (taken : Files.resolve tree false cache.file = .ok (.taken location))
      (noFolder : ∀ entries, tree.get? location ≠ some (.folder entries)) :
      Saves cache tree
        ⟨{ cache with dirty := false }, tree.put location (.file (encode cache.entries)), none⟩

theorem saves_save (cache : Cache) (tree : Files.Node) : Saves cache tree (cache.save tree) := by
  unfold save
  dsimp only
  cases dirty : cache.dirty with
  | false => exact .unchanged dirty
  | true =>
      rw [if_neg (by simp)]
      cases found : Files.find tree true cache.folder with
      | error refusal => exact .failed dirty _
      | ok node =>
          cases node with
          | file content => exact .failed dirty _
          | link target => exact .failed dirty _
          | folder entries =>
              have top : Files.IsFolder tree [] := by
                obtain ⟨location, -, inside⟩ := Files.find_eq_ok_iff.mp found
                cases location with
                | nil => exact ⟨entries, inside⟩
                | cons name location =>
                    obtain ⟨others, -, rfl, -⟩ := Files.Node.get?_cons_eq_some inside
                    exact ⟨others, rfl⟩
              dsimp only
              cases leads : Files.resolve tree false cache.file with
              | error refusal => exact .failed dirty _
              | ok spot =>
                  cases spot with
                  | free location =>
                      obtain ⟨absent, -⟩ := Files.resolve_sound top leads
                      simp only [absent]
                      exact .created dirty top leads
                  | taken location =>
                      dsimp only
                      split
                      · exact .failed dirty _
                      · next noFolder => exact .replaced dirty top leads noFolder

/-- The path does not end at a link. -/
def Unlinked (tree : Files.Node) (path : Bytes) : Prop :=
  ∀ target, Files.find tree false path ≠ .ok (.link target)

instance (tree : Files.Node) (path : Bytes) : Decidable (Unlinked tree path) :=
  decidable_of_iff
    ((match Files.find tree false path with
      | .ok (.link _) => false
      | _ => true) = true) <| by
    unfold Unlinked
    split
    · next target found => simp [found]
    · next other => simpa using other

theorem Unlinked.of_sameShape {before after : Files.Node} {path : Bytes}
    (unlinked : Unlinked before path) (shape : Files.SameShape after before) :
    Unlinked after path := by
  intro target found
  obtain ⟨location, leads, inside⟩ := Files.find_eq_ok_iff.mp found
  have alike := shape location
  rw [inside] at alike
  rw [shape.resolve_eq] at leads
  generalize there : before.get? location = node at alike
  cases alike with
  | link target => exact unlinked target (Files.find_eq_ok_iff.mpr ⟨location, leads, there⟩)

theorem Unlinked.file_of_taken {path : Bytes} (unlinked : Unlinked tree path)
    (top : Files.IsFolder tree []) {location : Files.Location}
    (taken : Files.resolve tree false path = .ok (.taken location))
    (noFolder : ∀ entries, tree.get? location ≠ some (.folder entries)) :
    ∃ old, tree.get? location = some (.file old) ∧
      Files.resolve tree true path = .ok (.taken location) := by
  obtain ⟨node, found⟩ := Files.resolve_sound top taken
  cases node with
  | file old => exact ⟨old, found, Files.resolve_of_file top taken found⟩
  | link target =>
      exact absurd (Files.find_eq_ok_iff.mpr ⟨location, taken, found⟩) (unlinked target)
  | folder entries => exact absurd found (noFolder entries)

/-- Entries that were stored are in the file. -/
theorem holds_save (unlinked : Unlinked tree cache.file) (dirty : cache.dirty = true)
    (succeeds : (cache.save tree).failure = none) :
    Holds (cache.save tree).tree cache.file cache.entries := by
  have saves := saves_save cache tree
  generalize cache.save tree = saved at saves succeeds ⊢
  cases saves with
  | unchanged clean => exact Bool.noConfusion (clean.symm.trans dirty)
  | failed dirty failure => cases succeeds
  | created dirty top free =>
      exact ⟨_, Files.read_put_free top free _, decode?_encode cache.entries⟩
  | replaced dirty top taken noFolder =>
      obtain ⟨old, found, leads⟩ := unlinked.file_of_taken top taken noFolder
      exact ⟨_, Files.read_put leads found _, decode?_encode cache.entries⟩

/-- Storing entries leaves every other file as it is. -/
theorem read_save_of_apart (unlinked : Unlinked tree cache.file) {path content : Bytes}
    (apart : ¬ Files.SameFile tree cache.file path)
    (readable : Files.read tree path = .ok content) :
    Files.read (cache.save tree).tree path = .ok content := by
  have saves := saves_save cache tree
  generalize cache.save tree = saved at saves ⊢
  cases saves with
  | unchanged clean => exact readable
  | failed dirty failure => exact readable
  | created dirty top free => exact (Files.grows_put_free top free _).read_eq readable
  | replaced dirty top taken noFolder =>
      obtain ⟨old, found, leads⟩ := unlinked.file_of_taken top taken noFolder
      exact Files.read_put_of_apart leads found apart readable _

end Save

section Load

variable {folder : Bytes} {maxAge : Int} {tree after : Files.Node} {cache : Cache}

/-- What a load finds. -/
theorem load_eq_ok (loaded : load folder maxAge tree = .ok (cache, after)) :
    Files.makeFolders folder tree = .ok after ∧
      ∃ entries, stored after (Path.join folder fileName) = .ok entries ∧
        cache = { folder, maxAge, entries } := by
  unfold load at loaded
  split at loaded
  · cases loaded
  · next made =>
      dsimp only at loaded
      split at loaded
      · cases loaded
      · next entries found =>
          cases loaded
          exact ⟨made, entries, found, rfl⟩

/-- A load finds the entries that were stored, and leaves the files as they are. -/
theorem load_of_holds (top : Files.IsFolder tree []) {entries : Keyed Entry}
    (holds : Holds tree (Path.join folder fileName) entries)
    (loaded : load folder maxAge tree = .ok (cache, after)) :
    cache = { folder, maxAge, entries } ∧ Files.Grows tree after := by
  obtain ⟨made, found, storedOk, rfl⟩ := load_eq_ok loaded
  have grows := Files.grows_makeFolders top made
  obtain ⟨content, readable, decoded⟩ := holds
  have still : Holds after (Path.join folder fileName) entries :=
    ⟨content, grows.read_eq readable, decoded⟩
  rw [still.stored_eq, Except.ok.injEq] at storedOk
  rw [storedOk]
  exact ⟨rfl, grows⟩

end Load

end Stencil.Cache
