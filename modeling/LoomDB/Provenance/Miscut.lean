import LoomDB.Core.Describe
import LoomDB.Foundations.StateExcept
import LoomDB.Provenance.Recall

/-!
# Texts that cannot be described

A description shows the first sixty bytes of a long text. It panics, and fails in no other
way, where the sixty-first byte goes on with a character.
-/

namespace LoomDB

/-- A character of the text goes on over the sixtieth byte. -/
def Miscut (text : Bytes) : Prop :=
  ∃ byte, text[60]? = some byte ∧ 0x80 ≤ byte ∧ byte ≤ 0xBF

/-- The value is a text that is miscut. -/
def Value.Miscut : Value → Prop
  | .text chars => LoomDB.Miscut chars
  | _ => False

/-- The value that is shown of the record is miscut. -/
def Record.Miscut : Record → Prop
  | .observation _ => False
  | .claim fact => fact.object.Miscut
  | .value plain => plain.Miscut

section Describing

variable {platform : Platform} {error : LoomError}

theorem sliceTo_eq_error {text : Bytes} (hlong : 60 < text.length) :
    sliceTo 60 text = .error error ↔ error = .panicked ∧ Miscut text := by
  unfold sliceTo Miscut
  rw [List.getElem?_eq_getElem hlong]
  dsimp only
  split
  · next hinside =>
    constructor
    · intro heq
      exact ⟨(Except.error.inj heq).symm, _, rfl, hinside⟩
    · rintro ⟨rfl, -⟩
      rfl
  · next houtside =>
    refine iff_of_false nofun ?_
    rintro ⟨-, byte, hbyte, hinside⟩
    exact houtside (Option.some.inj hbyte ▸ hinside)

theorem Miscut.length_lt {text : Bytes} (hmiscut : Miscut text) : 60 < text.length := by
  obtain ⟨byte, hbyte, -⟩ := hmiscut
  exact (List.getElem?_eq_some_iff.mp hbyte).1

theorem Value.describe_eq_error {value : Value} :
    value.describe platform = .error error ↔
      error = .panicked ∧ value.Miscut := by
  cases value with
  | text chars =>
      rw [Value.describe]
      split
      · next hshort =>
        refine iff_of_false nofun fun hmiscut => ?_
        exact absurd hmiscut.2.length_lt (Nat.not_lt.mpr hshort)
      · next hlong => exact StateExcept.except_map_eq_error.trans (sliceTo_eq_error (Nat.lt_of_not_le hlong))
  | _ => exact iff_of_false nofun fun hmiscut => hmiscut.2

theorem Record.describe_eq_error {record : Record} :
    record.describe platform = .error error ↔ error = .panicked ∧ record.Miscut := by
  cases record with
  | observation obs => exact iff_of_false nofun fun hmiscut => hmiscut.2
  | value plain => exact Value.describe_eq_error
  | claim fact =>
      exact StateExcept.except_map_eq_error.trans Value.describe_eq_error

/-- A node whose intent is miscut cannot be described. -/
theorem DerivationNode.describe_eq_error {node : DerivationNode} :
    node.describe platform = .error error ↔ error = .panicked ∧ Miscut node.intent := by
  unfold DerivationNode.describe
  split
  · next hlong =>
    rw [← sliceTo_eq_error hlong]
    cases hslice : sliceTo 60 node.intent with
    | error failed => exact Iff.rfl
    | ok start => exact iff_of_false nofun nofun
  · next hshort =>
    refine iff_of_false nofun fun hmiscut => ?_
    exact hshort hmiscut.2.length_lt

end Describing

end LoomDB
