import IronGraph.Library.FixedBytes
import IronGraph.Library.PrefixOrder

/-!
Big-endian words: the lexicographic order of the bytes is the order of the numbers.
-/

namespace FixedBytes

open Std

def beBytes (width value : Nat) : List UInt8 := (leBytes width value).reverse

def ofBeBytes (bytes : List UInt8) : Nat := ofLeBytes bytes.reverse

@[simp] theorem beBytes_length (width value : Nat) : (beBytes width value).length = width := by
  simp [beBytes]

theorem ofBeBytes_beBytes (width value : Nat) (fits : value < 256 ^ width) :
    ofBeBytes (beBytes width value) = value := by
  rw [ofBeBytes, beBytes, List.reverse_reverse, ofLeBytes_leBytes width value fits]

theorem beBytes_succ (width value : Nat) :
    beBytes (width + 1) value = beBytes width (value / 256) ++ [UInt8.ofNat value] := by
  rw [beBytes, leBytes, List.reverse_cons, beBytes]

theorem compare_append_left {α : Type} [Ord α] [ReflOrd α] (stem left right : List α) :
    compare (stem ++ left) (stem ++ right) = compare left right := by
  induction stem with
  | nil => rfl
  | cons head tail ih => simp [List.compare_cons_cons, ih]

theorem compare_append_of_lt {α : Type} [Ord α] {left right : List α} (first second : List α)
    (same : left.length = right.length) (below : compare left right = .lt) :
    compare (left ++ first) (right ++ second) = .lt := by
  induction left generalizing right with
  | nil =>
    cases right with
    | nil => cases below
    | cons _ _ => cases same
  | cons head tail ih =>
    cases right with
    | nil => cases same
    | cons other rest =>
      simp only [List.cons_append, List.compare_cons_cons] at below ⊢
      cases order : compare head other with
      | lt => rfl
      | gt =>
        rw [order] at below
        cases below
      | eq =>
        rw [order] at below
        exact ih (by simpa using same) below

theorem beBytes_lt {width smaller larger : Nat} (below : smaller < larger)
    (fits : larger < 256 ^ width) : compare (beBytes width smaller) (beBytes width larger) = .lt := by
  induction width generalizing smaller larger with
  | zero => simp at fits; omega
  | succ width ih =>
    have fitting : larger / 256 < 256 ^ width := by
      rw [Nat.div_lt_iff_lt_mul (by decide), ← Nat.pow_succ]
      exact fits
    rw [beBytes_succ, beBytes_succ]
    by_cases leading : smaller / 256 < larger / 256
    · exact compare_append_of_lt _ _ (by simp) (ih leading fitting)
    · have same : smaller / 256 = larger / 256 := by omega
      rw [same, compare_append_left, List.compare_cons_cons]
      have last : compare (UInt8.ofNat smaller) (UInt8.ofNat larger) = .lt := by
        rw [Std.compare_eq_lt, UInt8.lt_iff_toNat_lt, UInt8.toNat_ofNat', UInt8.toNat_ofNat']
        omega
      rw [last]
      rfl

end FixedBytes
