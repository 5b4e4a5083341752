import Mathlib

/-!
A serialization of any countable type: the number of a value, written in unary.
-/

namespace UnaryCode

open List Function

instance charCountable : Countable Char :=
  Injective.countable (show Injective Char.toNat from fun _ _ => Char.toNat_inj.mp)

instance stringCountable : Countable String :=
  Injective.countable (show Injective String.toList from fun _ _ => String.toList_inj.mp)

instance byteCountable : Countable UInt8 :=
  Injective.countable (show Injective UInt8.toNat from fun _ _ => UInt8.toNat_inj.mp)

instance wordCountable : Countable UInt64 :=
  Function.Injective.countable (show Function.Injective UInt64.toNat from fun _ _ =>
    UInt64.toNat_inj.mp)

instance bitsCountable (width : Nat) : Countable (BitVec width) :=
  Injective.countable (show Injective BitVec.toNat from fun _ _ => BitVec.eq_of_toNat_eq)

variable {α : Type} [Countable α]

noncomputable def number : α → Nat := Classical.choose (exists_injective_nat α)

theorem number_injective : Injective (number : α → Nat) :=
  Classical.choose_spec (exists_injective_nat α)

noncomputable def write (value : α) : List UInt8 := replicate (number value) 0

theorem write_injective : Injective (write : α → List UInt8) := by
  intro first second same
  have long := congrArg length same
  simp only [write, length_replicate] at long
  exact number_injective long

open Classical in
noncomputable def read (bytes : List UInt8) : Option α :=
  if written : ∃ value : α, write value = bytes then some written.choose else none

theorem read_write (value : α) : read (write value) = some value := by
  have written : ∃ other : α, write other = write value := ⟨value, rfl⟩
  rw [read, dif_pos written, write_injective written.choose_spec]

end UnaryCode
