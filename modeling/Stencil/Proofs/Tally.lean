import Stencil.Keyed
import Stencil.Tally

/-!
# Tallies as maps

A tally has one entry for each label counted so far, and the entry holds how
often.  Adding keeps the entries in order, changes the count of one label, and
adds to the sum.
-/

namespace Stencil.Tally

/-- The counts of all labels together. -/
def sum : Tally → Int
  | [] => 0
  | (_, n) :: tally => n + sum tally

theorem mem_add {label : Bytes} {n : Int} {tally : Tally} {entry : Bytes × Int}
    (member : entry ∈ tally.add label n) :
    entry.1 = label ∨ ∃ old ∈ tally, old.1 = entry.1 := by
  induction tally with
  | nil =>
      rw [add, List.mem_singleton] at member
      exact .inl (congrArg Prod.fst member)
  | cons first tally ih =>
      obtain ⟨other, m⟩ := first
      rw [add] at member
      split at member
      · rcases List.mem_cons.mp member with rfl | later
        · exact .inr ⟨(other, m), List.mem_cons_self, rfl⟩
        · exact .inr ⟨entry, List.mem_cons_of_mem _ later, rfl⟩
      split at member
      · rcases List.mem_cons.mp member with rfl | kept
        · exact .inl rfl
        · exact .inr ⟨entry, kept, rfl⟩
      · rcases List.mem_cons.mp member with rfl | later
        · exact .inr ⟨(other, m), List.mem_cons_self, rfl⟩
        · rcases ih later with same | ⟨old, found, same⟩
          · exact .inl same
          · exact .inr ⟨old, List.mem_cons_of_mem _ found, same⟩

theorem sorted_add (label : Bytes) (n : Int) {tally : Tally} (sorted : Keyed.Sorted tally) :
    Keyed.Sorted (tally.add label n) := by
  induction tally with
  | nil => exact List.pairwise_singleton _ _
  | cons first tally ih =>
      obtain ⟨other, m⟩ := first
      obtain ⟨above, rest⟩ := List.pairwise_cons.mp sorted
      rw [add]
      split
      · exact List.pairwise_cons.mpr ⟨above, rest⟩
      next differ =>
        split
        · next before =>
            refine List.pairwise_cons.mpr ⟨?_, sorted⟩
            intro entry member
            rcases List.mem_cons.mp member with rfl | later
            · exact before
            · exact List.lt_trans before (above entry later)
        · next notBefore =>
            refine List.pairwise_cons.mpr ⟨?_, ih rest⟩
            intro entry member
            rcases mem_add member with same | ⟨old, found, same⟩
            · rw [same]
              exact Std.lt_of_le_of_ne notBefore (Ne.symm differ)
            · rw [← same]
              exact above old found

theorem lookup_cons_ite (label name : Bytes) (m : Int) (tally : Tally) :
    List.lookup label ((name, m) :: tally) =
      if label = name then some m else tally.lookup label := by
  by_cases same : label = name
  · simp [same]
  · rw [List.lookup_cons, beq_eq_false_iff_ne.mpr same, if_neg same]

/-- A label that comes before all labels of a tally has no count in it. -/
theorem lookup_eq_none {label : Bytes} {tally : Tally}
    (before : ∀ entry ∈ tally, label < entry.1) : tally.lookup label = none := by
  rw [List.lookup_eq_none_iff]
  intro entry member
  apply bne_iff_ne.mpr
  rintro rfl
  exact List.lt_irrefl _ (before entry member)

theorem lookup_add (label : Bytes) (n : Int) {tally : Tally} (sorted : Keyed.Sorted tally)
    (other : Bytes) :
    (tally.add label n).lookup other =
      if other = label then some (tally.count label + n) else tally.lookup other := by
  induction tally with
  | nil => simp [add, lookup_cons_ite, count]
  | cons first tally ih =>
      obtain ⟨name, m⟩ := first
      obtain ⟨above, rest⟩ := List.pairwise_cons.mp sorted
      rw [add]
      split
      · next here =>
          rw [lookup_cons_ite, lookup_cons_ite, count, lookup_cons_ite, if_pos here, here]
          by_cases same : other = name <;> simp [same]
      next differ =>
        split
        · next before =>
            -- every label of the tally is greater, so this one has no count yet
            have absent : List.lookup label ((name, m) :: tally) = none := by
              apply lookup_eq_none
              intro entry member
              rcases List.mem_cons.mp member with rfl | later
              · exact before
              · exact List.lt_trans before (above entry later)
            rw [lookup_cons_ite, count, absent, Option.getD_none, Int.zero_add]
        · rw [lookup_cons_ite, ih rest, lookup_cons_ite, count, count, lookup_cons_ite,
            if_neg differ]
          by_cases found : other = name
          · have apart : name ≠ label := Ne.symm differ
            simp [found, apart]
          · simp [found]

theorem sum_add (label : Bytes) (n : Int) (tally : Tally) :
    (tally.add label n).sum = tally.sum + n := by
  induction tally with
  | nil => simp [add, sum]
  | cons first tally ih =>
      obtain ⟨other, m⟩ := first
      rw [add]
      split
      · simp only [sum]
        omega
      split
      · simp only [sum]
        omega
      · simp only [sum, ih]
        omega

theorem sorted_ofLabels (labels : List Bytes) : Keyed.Sorted (ofLabels labels) := by
  have kept : ∀ tally : Tally, Keyed.Sorted tally →
      Keyed.Sorted (labels.foldl (fun tally label => add label 1 tally) tally) := by
    induction labels with
    | nil => exact fun tally sorted => sorted
    | cons label labels ih => exact fun tally sorted => ih _ (sorted_add label 1 sorted)
  exact kept [] List.Pairwise.nil

theorem sum_ofLabels (labels : List Bytes) : (ofLabels labels).sum = labels.length := by
  have added : ∀ tally : Tally,
      sum (labels.foldl (fun tally label => add label 1 tally) tally) =
        tally.sum + labels.length := by
    induction labels with
    | nil => simp
    | cons label labels ih =>
        intro tally
        rw [List.foldl_cons, ih, sum_add, List.length_cons]
        omega
  rw [ofLabels, added]
  simp [sum]

/-- The entry of a label is how often it occurs; there is none if it does not. -/
theorem lookup_ofLabels (labels : List Bytes) (label : Bytes) :
    (ofLabels labels).lookup label =
      if label ∈ labels then some (labels.count label : Int) else none := by
  have added : ∀ tally : Tally, Keyed.Sorted tally →
      (labels.foldl (fun tally label => add label 1 tally) tally).lookup label =
        if label ∈ labels then some (tally.count label + labels.count label)
        else tally.lookup label := by
    induction labels with
    | nil => simp
    | cons first labels ih =>
        intro tally sorted
        rw [List.foldl_cons, ih _ (sorted_add first 1 sorted), lookup_add first 1 sorted]
        have counted : count (add first 1 tally) label =
            tally.count label + if label = first then 1 else 0 := by
          rw [count, lookup_add first 1 sorted]
          by_cases same : label = first
          · simp [same]
          · simp [same, count]
        rw [counted]
        by_cases same : label = first
        · subst same
          by_cases again : label ∈ labels
          · simp [again]
            omega
          · simp [again, List.count_eq_zero_of_not_mem again]
        · have apart : first ≠ label := Ne.symm same
          simp [same, apart]
  rw [ofLabels, added [] List.Pairwise.nil]
  simp [count]

theorem count_ofLabels (labels : List Bytes) (label : Bytes) :
    (ofLabels labels).count label = labels.count label := by
  rw [count, lookup_ofLabels]
  by_cases member : label ∈ labels
  · simp [member]
  · simp [member, List.count_eq_zero_of_not_mem member]

end Stencil.Tally
