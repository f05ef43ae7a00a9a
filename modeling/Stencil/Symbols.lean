import Stencil.Text.Bytes

/-!
# Symbols

The three marks of the pattern language: the sigil that begins a reference
and the delimiters that enclose a group.  All rules of one engine share them.
-/

namespace Stencil

/-- The marks recognised in patterns and templates. -/
structure Symbols where
  sigil : Bytes := []
  opener : Bytes := []
  closer : Bytes := []
  deriving DecidableEq, Inhabited

namespace Symbols

/-- The marks used when none are chosen. -/
def standard : Symbols where
  sigil := [byte '$']
  opener := [byte '\x7b']
  closer := [byte '\x7d']

/-- Why marks cannot be used.  An empty mark would occur everywhere without
consuming anything. -/
inductive Fault where
  | emptySigil
  | emptyOpener
  | emptyCloser
  deriving DecidableEq

/-- The wording of a fault. -/
def Fault.message : Fault → Bytes
  | .emptySigil => bytes "sigil must not be empty"
  | .emptyOpener => bytes "open: block delimiter must not be empty"
  | .emptyCloser => bytes "close: block delimiter must not be empty"

/-- The first empty mark, in the order sigil, opener, closer. -/
def fault? (symbols : Symbols) : Option Fault :=
  if symbols.sigil.isEmpty then some .emptySigil
  else if symbols.opener.isEmpty then some .emptyOpener
  else if symbols.closer.isEmpty then some .emptyCloser
  else none

/-- No mark is empty. -/
structure Valid (symbols : Symbols) : Prop where
  sigil : symbols.sigil ≠ []
  opener : symbols.opener ≠ []
  closer : symbols.closer ≠ []

theorem fault?_eq_none_iff {symbols : Symbols} :
    symbols.fault? = none ↔ symbols.Valid := by
  unfold fault?
  constructor
  · intro absent
    split at absent
    · cases absent
    next sigil =>
      split at absent
      · cases absent
      next opener =>
        split at absent
        · cases absent
        next closer =>
          constructor <;> simp_all
  · intro valid
    simp [valid.sigil, valid.opener, valid.closer]

/-- All three marks are empty, which stands for "not chosen". -/
def isUnset (symbols : Symbols) : Bool :=
  symbols == {}

/-- The chosen marks, or the standard ones when none are chosen. -/
def orStandard (symbols : Symbols) : Symbols :=
  if symbols.isUnset then standard else symbols

/-- Marks that can be used are kept. -/
theorem Valid.orStandard_eq {symbols : Symbols} (valid : symbols.Valid) :
    symbols.orStandard = symbols := by
  have chosen : symbols.isUnset = false := by
    rw [isUnset, beq_eq_false_iff_ne]
    rintro rfl
    exact valid.sigil rfl
  rw [orStandard, chosen, if_neg Bool.false_ne_true]

/-- The three marks separated by spaces. -/
def describe (symbols : Symbols) : Bytes :=
  Bytes.join [byte ' '] [symbols.sigil, symbols.opener, symbols.closer]

end Symbols

end Stencil
