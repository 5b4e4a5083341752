import Mathlib

/-!
Overlays: for each key of a map a change says nothing, or removes the key, or gives it a value. A
later change laid over an earlier one wins wherever it says something.
-/

namespace Overlay

variable {κ ν : Type}

def read (overlay : κ → Option (Option ν)) (key : κ) (base : Option ν) : Option ν :=
  (overlay key).getD base

def layer (newer older : κ → Option (Option ν)) : κ → Option (Option ν) :=
  fun key => (newer key).or (older key)

def silent : κ → Option (Option ν) := fun _ => none

@[simp] theorem layer_silent (overlay : κ → Option (Option ν)) : layer overlay silent = overlay := by
  funext key
  simp [layer, silent]

@[simp] theorem silent_layer (overlay : κ → Option (Option ν)) : layer silent overlay = overlay := by
  funext key
  simp [layer, silent]

theorem layer_assoc (first second third : κ → Option (Option ν)) :
    layer (layer first second) third = layer first (layer second third) := by
  funext key
  simp [layer, Option.or_assoc]

theorem read_layer (newer older : κ → Option (Option ν)) (key : κ) (base : Option ν) :
    read (layer newer older) key base = read newer key (read older key base) := by
  unfold read layer
  cases newer key <;> rfl

end Overlay
