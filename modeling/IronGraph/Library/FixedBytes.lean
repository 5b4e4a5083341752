import Mathlib

/-!
Fixed-width integers as bytes, and sequences cut into pieces of one size.
-/

namespace FixedBytes

open List Nat

def leBytes : Nat → Nat → List UInt8
  | 0, _ => []
  | width + 1, value => UInt8.ofNat value :: leBytes width (value / 256)

def ofLeBytes : List UInt8 → Nat
  | [] => 0
  | byte :: rest => byte.toNat + 256 * ofLeBytes rest

@[simp] theorem leBytes_length (width value : Nat) : (leBytes width value).length = width := by
  induction width generalizing value with
  | zero => rfl
  | succ width ih => simp [leBytes, ih]

theorem ofLeBytes_leBytes (width value : Nat) (fits : value < 256 ^ width) :
    ofLeBytes (leBytes width value) = value := by
  induction width generalizing value with
  | zero =>
    have zero : value = 0 := by simpa using fits
    simp [leBytes, ofLeBytes, zero]
  | succ width ih =>
    have smaller : value / 256 < 256 ^ width := by
      rw [Nat.div_lt_iff_lt_mul (by decide), ← Nat.pow_succ]
      exact fits
    simp only [leBytes, ofLeBytes, ih _ smaller, UInt8.toNat_ofNat']
    omega

section Pieces

variable {α : Type}

def pieceCount (size length : Nat) : Nat := (length + size - 1) / size

variable (size : Nat) (items : List α) (index : Nat)

def piece : List α := (items.drop (index * size)).take size

theorem piece_length : (piece size items index).length = min (items.length - index * size) size := by
  simp [piece, Nat.min_comm]

theorem take_piece : items.take (index * size) ++ piece size items index =
    items.take ((index + 1) * size) := by
  rw [piece, succ_mul, take_add]

variable {size : Nat}

theorem pieceCount_covers (positive : 0 < size) (length : Nat) :
    length ≤ pieceCount size length * size := by
  unfold pieceCount
  have split := div_add_mod (length + size - 1) size
  have small := Nat.mod_lt (length + size - 1) positive
  rw [Nat.mul_comm] at split
  omega

theorem getElem?_piece (size : Nat) (items : List α) (index pos : Nat) :
    (piece size items index)[pos]? = if pos < size then items[index * size + pos]? else none := by
  rw [piece, getElem?_take, getElem?_drop]

theorem getElem?_piece_div (positive : 0 < size) (items : List α) (pos : Nat) :
    (piece size items (pos / size))[pos % size]? = items[pos]? := by
  rw [getElem?_piece, if_pos (mod_lt _ positive), div_add_mod']

theorem piece_position {index pos offset : Nat} (inside : offset < size) :
    index * size + offset = pos ↔ index = pos / size ∧ offset = pos % size := by
  constructor
  · rintro rfl
    have positive : 0 < size := Nat.zero_lt_of_lt inside
    rw [Nat.mul_comm, Nat.mul_add_div positive, Nat.mul_add_mod, Nat.div_eq_of_lt inside,
      Nat.mod_eq_of_lt inside]
    exact ⟨(Nat.add_zero _).symm, rfl⟩
  · rintro ⟨rfl, rfl⟩
    exact div_add_mod' pos size

theorem piece_set (size : Nat) (items : List α) (index pos : Nat) (value : α) :
    piece size (items.set pos value) index =
      if index = pos / size then (piece size items index).set (pos % size) value
      else piece size items index := by
  apply ext_getElem?
  intro offset
  by_cases inside : offset < size
  · have place := @piece_position size index pos offset inside
    by_cases here : index = pos / size
    · rw [if_pos here, getElem?_piece, if_pos inside, getElem?_set, getElem?_set, getElem?_piece,
        if_pos inside, piece_length]
      by_cases same : pos % size = offset
      · have whole : pos = index * size + offset := (place.mpr ⟨here, same.symm⟩).symm
        rw [if_pos whole, if_pos same]
        by_cases within : pos < items.length
        · rw [if_pos (whole ▸ within), if_pos (by omega)]
        · rw [if_neg (whole ▸ within), if_neg (by omega)]
      · rw [if_neg fun whole => same (place.mp whole.symm).2.symm, if_neg same]
    · rw [if_neg here, getElem?_piece, getElem?_piece, if_pos inside, if_pos inside,
        getElem?_set_ne fun whole => here (place.mp whole.symm).1]
  · have beyond : (piece size items index).length ≤ offset := by
      rw [piece_length]
      omega
    rw [getElem?_piece, if_neg inside]
    split
    · rw [getElem?_eq_none (by rw [length_set]; exact beyond)]
    · rw [getElem?_eq_none beyond]

theorem piece_concat (positive : 0 < size) (items : List α) (index : Nat) (value : α) :
    piece size (items ++ [value]) index =
      if index = items.length / size then piece size items index ++ [value]
        else piece size items index := by
  have split := div_add_mod' items.length size
  have small := mod_lt items.length positive
  rw [piece, drop_append, take_append, length_drop]
  by_cases here : index = items.length / size
  · rw [← here] at split
    rw [if_pos here, piece, show index * size - items.length = 0 by omega, drop_zero,
      take_of_length_le (show [value].length ≤ _ by simp; omega)]
  · rw [if_neg here, piece, append_right_eq_self]
    rcases Nat.lt_or_gt_of_ne here with before | after
    · -- a full piece: nothing of the new item fits
      have full := mul_le_mul_right size (succ_le_of_lt before)
      rw [succ_mul] at full
      rw [show size - (items.length - index * size) = 0 by omega, take_zero]
    · -- a piece past the end: the new item is dropped with what precedes it
      have past := mul_le_mul_right size (succ_le_of_lt after)
      rw [succ_mul] at past
      rw [drop_eq_nil_of_le (by simp; omega), take_nil]

theorem piece_take (size : Nat) (items : List α) (index count : Nat) :
    piece size (items.take (index * size + count)) index =
      (items.drop (index * size)).take (min size count) := by
  rw [piece, drop_take, take_take, Nat.add_sub_cancel_left]

theorem piece_take_elsewhere {count index other : Nat} (items : List α) (partly : count ≤ size)
    (elsewhere : other ≠ index) :
    piece size (items.take (index * size + count)) other =
      piece size (items.take (index * size)) other := by
  apply ext_getElem?
  intro offset
  rw [getElem?_piece, getElem?_piece]
  by_cases inside : offset < size
  · rw [if_pos inside, if_pos inside, getElem?_take, getElem?_take]
    rcases Nat.lt_or_gt_of_ne elsewhere with before | after
    · have bound := Nat.mul_le_mul_right size (Nat.succ_le_of_lt before)
      rw [succ_mul] at bound
      rw [if_pos (by omega), if_pos (by omega)]
    · have bound := mul_le_mul_right size (succ_le_of_lt after)
      rw [succ_mul] at bound
      rw [if_neg (by omega), if_neg (by omega)]
  · rw [if_neg inside, if_neg inside]

theorem flatMap_piece (size : Nat) (items : List α) (count : Nat) :
    (range' 0 count).flatMap (piece size items) = items.take (count * size) := by
  induction count with
  | zero => simp
  | succ count ih =>
    rw [range'_1_concat, flatMap_append, ih, Nat.zero_add, flatMap_singleton, take_piece]

theorem piece_drop (size : Nat) (items : List α) (count index : Nat) :
    piece size (items.drop (count * size)) index = piece size items (count + index) := by
  rw [piece, piece, drop_drop, Nat.add_mul]

end Pieces

end FixedBytes
