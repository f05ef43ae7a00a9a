import Stencil.Path

/-!
# The names of a cleaned path

Cleaning a path keeps the names it is cleaned to, so a cleaned path can be cleaned
again or extended like the path itself.  The names of a path into a folder are those
of the folder's path and one more.
-/

namespace Stencil

namespace Bytes

theorem splitOn_eq_cons (separator : UInt8) (text : Bytes) :
    ∃ part parts, splitOn separator text = part :: parts := by
  cases text with
  | nil => exact ⟨[], [], rfl⟩
  | cons b text =>
      rw [splitOn]
      split
      · exact ⟨[], _, rfl⟩
      · split
        · exact ⟨[b], [], rfl⟩
        · exact ⟨_, _, rfl⟩

theorem splitOn_append (separator : UInt8) (left right : Bytes) :
    splitOn separator (left ++ separator :: right) =
      splitOn separator left ++ splitOn separator right := by
  induction left with
  | nil => simp [splitOn]
  | cons b left ih =>
      obtain ⟨part, parts, split⟩ := splitOn_eq_cons separator left
      rw [List.cons_append, splitOn, splitOn, ih, split]
      split <;> rfl

theorem splitOn_of_not_mem {separator : UInt8} {text : Bytes} (absent : separator ∉ text) :
    splitOn separator text = [text] := by
  induction text with
  | nil => rfl
  | cons b text ih =>
      obtain ⟨here, later⟩ := not_or.mp (mt List.mem_cons.mpr absent)
      have other : (b == separator) = false := by
        simpa using Ne.symm here
      rw [splitOn, other, ih later]
      rfl

theorem not_mem_of_mem_splitOn {separator : UInt8} {text part : Bytes}
    (member : part ∈ splitOn separator text) : separator ∉ part := by
  induction text generalizing part with
  | nil =>
      rw [splitOn, List.mem_singleton] at member
      rw [member]
      exact List.not_mem_nil
  | cons b text ih =>
      obtain ⟨first, parts, split⟩ := splitOn_eq_cons separator text
      rw [splitOn] at member
      rw [split] at member ih
      split at member
      · rcases List.mem_cons.mp member with rfl | later
        · exact List.not_mem_nil
        · exact ih later
      · next other =>
          rcases List.mem_cons.mp member with rfl | later
          · intro found
            rcases List.mem_cons.mp found with rfl | found
            · simp at other
            · exact ih List.mem_cons_self found
          · exact ih (List.mem_cons_of_mem _ later)

theorem join_splitOn (separator : UInt8) (text : Bytes) :
    join [separator] (splitOn separator text) = text := by
  induction text with
  | nil => rfl
  | cons b text ih =>
      obtain ⟨part, parts, split⟩ := splitOn_eq_cons separator text
      rw [split] at ih
      rw [splitOn, split]
      by_cases same : b = separator
      · subst same
        simp only [beq_self_eq_true, if_true]
        rw [join, ih]
        · rfl
        · simp
      · have other : (b == separator) = false := by simpa using same
        simp only [other]
        cases parts with
        | nil => simpa [join] using ih
        | cons next parts => simpa [join] using ih

/-- A text is known by its parts. -/
theorem splitOn_inj {separator : UInt8} {left right : Bytes} :
    splitOn separator left = splitOn separator right ↔ left = right := by
  constructor
  · intro same
    rw [← join_splitOn separator left, same, join_splitOn]
  · rintro rfl
    rfl

end Bytes

namespace Path

/-- What can stand between the slashes of a path. -/
def IsName (name : Bytes) : Prop :=
  name ≠ [] ∧ byte '/' ∉ name

/-- A name that a folder can give to what is in it. -/
structure EntryName (name : Bytes) : Prop where
  isName : IsName name
  ne_here : name ≠ here
  ne_above : name ≠ above

instance (name : Bytes) : Decidable (EntryName name) :=
  decidable_of_iff ((name ≠ [] ∧ byte '/' ∉ name) ∧ name ≠ here ∧ name ≠ above)
    ⟨fun ⟨isName, notHere, notAbove⟩ => ⟨isName, notHere, notAbove⟩,
      fun entry => ⟨entry.isName, entry.ne_here, entry.ne_above⟩⟩

theorem names_append (left right : Bytes) :
    names (left ++ byte '/' :: right) = names left ++ names right := by
  rw [names, Bytes.splitOn_append, List.filter_append]
  rfl

theorem IsName.names_eq {name : Bytes} (isName : IsName name) : names name = [name] := by
  rw [names, Bytes.splitOn_of_not_mem isName.2]
  simp [isName.1]

theorem isName_of_mem_names {path name : Bytes} (member : name ∈ names path) : IsName name := by
  obtain ⟨part, filled⟩ := List.mem_filter.mp member
  exact ⟨by simpa using filled, Bytes.not_mem_of_mem_splitOn part⟩

theorem names_join {parts : List Bytes} (proper : ∀ part ∈ parts, IsName part) :
    names (Bytes.join [byte '/'] parts) = parts := by
  induction parts with
  | nil => rfl
  | cons part parts ih =>
      obtain ⟨first, later⟩ := List.forall_mem_cons.mp proper
      cases parts with
      | nil => exact first.names_eq
      | cons next parts =>
          rw [Bytes.join, List.append_assoc, List.singleton_append, names_append, ih later,
            first.names_eq]
          · rfl
          · simp

theorem isAbsolute_append {path : Bytes} (filled : path ≠ []) (rest : Bytes) :
    isAbsolute (path ++ rest) = isAbsolute path := by
  obtain ⟨b, path, rfl⟩ := List.exists_cons_of_ne_nil filled
  rfl

/-- Cleaned names, the last first, that stay as they are when they are cleaned
again. -/
structure Settled (absolute : Bool) (cleaned : List Bytes) : Prop where
  proper : ∀ name ∈ cleaned, IsName name ∧ name ≠ here
  again : cleaned.reverse.foldl (push absolute) [] = cleaned

theorem push_of_ne {name : Bytes} (notHere : name ≠ here) (notAbove : name ≠ above)
    (absolute : Bool) (cleaned : List Bytes) : push absolute cleaned name = name :: cleaned := by
  unfold push
  rw [if_neg notHere, if_neg notAbove]

theorem Settled.cons {absolute : Bool} {cleaned : List Bytes} (settled : Settled absolute cleaned)
    {name : Bytes} (isName : IsName name) (notHere : name ≠ here)
    (added : push absolute cleaned name = name :: cleaned) :
    Settled absolute (name :: cleaned) := by
  constructor
  · exact List.forall_mem_cons.mpr ⟨⟨isName, notHere⟩, settled.proper⟩
  · rw [List.reverse_cons, List.foldl_append, settled.again]
    exact added

theorem Settled.push {absolute : Bool} {cleaned : List Bytes} (settled : Settled absolute cleaned)
    {name : Bytes} (isName : IsName name) : Settled absolute (push absolute cleaned name) := by
  by_cases isHere : name = here
  · unfold Path.push
    rw [if_pos isHere]
    exact settled
  by_cases isAbove : name = above
  · subst isAbove
    cases cleaned with
    | nil =>
        cases absolute with
        | true => exact settled
        | false => exact settled.cons isName isHere rfl
    | cons last rest =>
        by_cases lastAbove : last = above
        · have added : Path.push absolute (last :: rest) above = above :: last :: rest := by
            rw [Path.push, if_neg isHere, if_pos rfl]
            exact if_pos lastAbove
          rw [added]
          exact settled.cons isName isHere added
        · -- the last name is taken back, and what is left was settled before it came
          obtain ⟨lastProper, proper⟩ := List.forall_mem_cons.mp settled.proper
          have again := settled.again
          rw [List.reverse_cons, List.foldl_append, List.foldl_cons, List.foldl_nil,
            push_of_ne lastProper.2 lastAbove] at again
          have taken : Path.push absolute (last :: rest) above = rest := by
            rw [Path.push, if_neg isHere, if_pos rfl]
            exact if_neg lastAbove
          rw [taken]
          exact ⟨proper, (List.cons.inj again).2⟩
  · have added := push_of_ne isHere isAbove absolute cleaned
    rw [added]
    exact settled.cons isName isHere added

theorem settled_foldl {absolute : Bool} {parts cleaned : List Bytes}
    (settled : Settled absolute cleaned) (proper : ∀ part ∈ parts, IsName part) :
    Settled absolute (parts.foldl (push absolute) cleaned) := by
  induction parts generalizing cleaned with
  | nil => exact settled
  | cons part parts ih =>
      obtain ⟨first, later⟩ := List.forall_mem_cons.mp proper
      exact ih (settled.push first) later

theorem settled_names (path : Bytes) :
    Settled (isAbsolute path) ((names path).foldl (push (isAbsolute path)) []) :=
  settled_foldl ⟨by simp, rfl⟩ fun _ member => isName_of_mem_names member

theorem isName_of_mem_cleanNames {path name : Bytes} (member : name ∈ cleanNames path) :
    IsName name :=
  ((settled_names path).proper name (List.mem_reverse.mp member)).1

theorem clean_ne_nil (path : Bytes) : clean path ≠ [] := by
  rw [clean]
  split
  · simp
  split
  · decide
  · next filled => simpa using filled

/-- The names of a relative path with a name begin with no slash. -/
theorem isAbsolute_join {parts : List Bytes} (proper : ∀ part ∈ parts, IsName part) :
    isAbsolute (Bytes.join [byte '/'] parts) = false := by
  have begins : ∀ {part : Bytes}, IsName part → isAbsolute part = false := by
    intro part isName
    obtain ⟨b, text, rfl⟩ := List.exists_cons_of_ne_nil isName.1
    have other : b ≠ byte '/' := fun same => isName.2 (by simp [same])
    simpa [isAbsolute] using other
  cases parts with
  | nil => rfl
  | cons part parts =>
      obtain ⟨first, -⟩ := List.forall_mem_cons.mp proper
      cases parts with
      | nil => exact begins first
      | cons next parts =>
          rw [Bytes.join, List.append_assoc, isAbsolute_append first.1]
          · exact begins first
          · simp

theorem isAbsolute_clean (path : Bytes) : isAbsolute (clean path) = isAbsolute path := by
  rw [clean]
  split
  · next absolute => exact absolute.symm
  · next relative =>
      rw [Bool.not_eq_true] at relative
      rw [relative]
      split
      · rfl
      · exact isAbsolute_join fun _ member => isName_of_mem_cleanNames member

/-- Cleaning a path keeps the names it is cleaned to. -/
theorem cleanNames_clean (path : Bytes) : cleanNames (clean path) = cleanNames path := by
  have joined : names (Bytes.join [byte '/'] (cleanNames path)) = cleanNames path :=
    names_join fun _ member => isName_of_mem_cleanNames member
  have again : (cleanNames path).foldl (push (isAbsolute path)) [] = (cleanNames path).reverse := by
    rw [cleanNames, List.reverse_reverse]
    exact (settled_names path).again
  rw [cleanNames, isAbsolute_clean]
  have parts : names (clean path) = cleanNames path ∨
      clean path = here ∧ cleanNames path = [] := by
    rw [clean]
    split
    · exact .inl ((names_append [] _).trans joined)
    split
    · next empty =>
        refine .inr ⟨rfl, ?_⟩
        rw [List.isEmpty_iff.mp empty] at joined
        exact joined.symm
    · exact .inl joined
  obtain parts | ⟨isHere, none⟩ := parts
  · rw [parts, again, List.reverse_reverse]
  · rw [isHere, none]
    rfl

section Child

variable {folder name : Bytes}

theorem cleanNames_child (filled : folder ≠ []) (entry : EntryName name) :
    cleanNames (folder ++ byte '/' :: name) = cleanNames folder ++ [name] := by
  rw [cleanNames, names_append, entry.isName.names_eq, isAbsolute_append filled,
    List.foldl_append, List.foldl_cons, List.foldl_nil, push_of_ne entry.ne_here entry.ne_above,
    List.reverse_cons]
  rfl

theorem cleanNames_join (filled : folder ≠ []) (entry : EntryName name) :
    cleanNames (join folder name) = cleanNames folder ++ [name] := by
  have filled' : ¬ folder.isEmpty = true := by simpa using filled
  rw [join, if_neg filled', cleanNames_clean, cleanNames_child filled entry]

theorem join_ne_nil (filled : folder ≠ []) : join folder name ≠ [] := by
  have filled' : ¬ folder.isEmpty = true := by simpa using filled
  rw [join, if_neg filled']
  exact clean_ne_nil _

theorem isAbsolute_join_name (filled : folder ≠ []) :
    isAbsolute (join folder name) = isAbsolute folder := by
  have filled' : ¬ folder.isEmpty = true := by simpa using filled
  rw [join, if_neg filled', isAbsolute_clean, isAbsolute_append filled]

theorem base_child (isName : IsName name) : base (folder ++ byte '/' :: name) = name := by
  rw [base, names_append, isName.names_eq, List.getLast?_concat]

end Child

/-- The names lead down from a root to a path. -/
structure Leads (root : Bytes) (names : List Bytes) (path : Bytes) : Prop where
  absolute : isAbsolute path = isAbsolute root
  cleaned : cleanNames path = cleanNames root ++ names

namespace Leads

variable {root path folder name : Bytes} {names : List Bytes}

theorem refl (root : Bytes) : Leads root [] root :=
  ⟨rfl, (List.append_nil _).symm⟩

theorem clean (leads : Leads root names path) : Leads root names (clean path) :=
  ⟨(isAbsolute_clean path).trans leads.absolute, (cleanNames_clean path).trans leads.cleaned⟩

theorem trans {below : List Bytes} (first : Leads root names folder)
    (second : Leads folder below path) : Leads root (names ++ below) path := by
  refine ⟨second.absolute.trans first.absolute, ?_⟩
  rw [second.cleaned, first.cleaned, List.append_assoc]

theorem child (filled : folder ≠ []) (entry : EntryName name) :
    Leads folder [name] (folder ++ byte '/' :: name) :=
  ⟨isAbsolute_append filled _, cleanNames_child filled entry⟩

theorem join (filled : folder ≠ []) (entry : EntryName name) :
    Leads folder [name] (join folder name) :=
  ⟨isAbsolute_join_name filled, cleanNames_join filled entry⟩

end Leads

end Path

end Stencil
