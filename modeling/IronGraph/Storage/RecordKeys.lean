import IronGraph.Library.OrderedBytes
import IronGraph.Library.Outcome
import IronGraph.Library.UnaryCode
import IronGraph.Storage.RecordCore

/-!
Encoded persistence records: keys made of a stem and big-endian identifiers, values of a codec that
reads back what it wrote, and the rule by which a list of operations brings a record up to date.
-/

namespace IronGraph.Persistence

open Std FixedBytes List UInt64

structure Codec (α : Type) where
  encode : α → Bytes
  decode : Bytes → Result α
  decode_encode : ∀ value, decode (encode value) = .ok value

def corrupt (message : String) : Error := .new .corruptStorage message

noncomputable def Codec.unary (α : Type) [Countable α] : Codec α where
  encode := UnaryCode.write
  decode := fun bytes => Outcome.orElse (UnaryCode.read bytes) (corrupt "unreadable persistence record")
  decode_encode := fun value => Outcome.orElse_eq_ok.mpr (UnaryCode.read_write value)

def idBytes (id : UInt64) : Bytes := beBytes 8 id.toNat

def key (stem : Bytes) (identifiers : List UInt64) : Bytes := stem ++ identifiers.flatMap idBytes

def ids (bytes : Bytes) (count : Nat) : Result (List UInt64) :=
  if bytes.length ≠ count * 8 then .error (corrupt "invalid persistence record key")
  else .ok ((range' 0 count).map fun index => ofNat (ofBeBytes (piece 8 bytes index)))

@[simp] theorem idBytes_length (id : UInt64) : (idBytes id).length = 8 := beBytes_length 8 id.toNat

theorem ofBeBytes_idBytes (id : UInt64) : UInt64.ofNat (ofBeBytes (idBytes id)) = id := by
  rw [idBytes, ofBeBytes_beBytes 8 id.toNat (by simpa using id.toNat_lt), UInt64.ofNat_toNat]

theorem idBytes_lt {first second : UInt64} (below : first < second) :
    compare (idBytes first) (idBytes second) = .lt := by
  exact beBytes_lt (lt_iff_toNat_lt.mp below) (by simpa using second.toNat_lt)

theorem length_flatMap_idBytes (identifiers : List UInt64) :
    (identifiers.flatMap idBytes).length = identifiers.length * 8 := by
  induction identifiers with
  | nil => rfl
  | cons id rest ih =>
    rw [flatMap_cons, length_append, ih, idBytes_length, length_cons]
    omega

theorem ids_flatMap (identifiers : List UInt64) :
    ids (identifiers.flatMap idBytes) identifiers.length = .ok identifiers := by
  have sized := length_flatMap_idBytes identifiers
  rw [ids, if_neg (by rw [sized]; simp)]
  congr 1
  induction identifiers with
  | nil => rfl
  | cons id rest ih =>
    rw [length_cons, range'_succ, map_cons, flatMap_cons]
    congr 1
    · rw [piece, Nat.zero_mul, drop_zero, take_left' (idBytes_length id), ofBeBytes_idBytes]
    · have later := ih (length_flatMap_idBytes rest)
      rw [← map_add_range' 0 rest.length 1, map_map]
      nth_rewrite 3 [← later]
      apply map_congr_left
      intro index _
      have shifted : piece 8 (idBytes id ++ rest.flatMap idBytes) (1 + index) =
          piece 8 (rest.flatMap idBytes) index := by
        rw [← piece_drop, Nat.one_mul, drop_left' (idBytes_length id)]
      simp only [Function.comp_apply, shifted]

theorem key_injective (stem : Bytes) : Function.Injective (key stem) := by
  intro first second same
  have bytes := append_cancel_left same
  have long := congrArg length bytes
  rw [length_flatMap_idBytes, length_flatMap_idBytes] at long
  have read := ids_flatMap first
  rw [bytes, show first.length = second.length by omega, ids_flatMap] at read
  exact (Except.ok.inj read).symm

theorem applyOperations_settled {ops : List RecordOp} {final : Option Bytes} {recs : RecordMap}
    {key : Bytes} (truthful : ∀ op ∈ ops, ∀ said, op.overlay key = some said → said = final)
    (covered : recs[key]? = final ∨ ∃ op ∈ ops, (op.overlay key).isSome) :
    (applyOperations recs ops)[key]? = final := by
  induction ops generalizing recs with
  | nil =>
    rcases covered with there | ⟨op, mem, -⟩
    · exact there
    · cases mem
  | cons op rest ih =>
    change (applyOperations (op.apply recs) rest)[key]? = final
    apply ih fun other mem => truthful other (mem_cons_of_mem _ mem)
    rw [RecordOp.getElem?_apply]
    cases said : op.overlay key with
    | some value =>
      left
      rw [Overlay.read, said, Option.getD_some]
      exact truthful op mem_cons_self value said
    | none =>
      rw [Overlay.read, said, Option.getD_none]
      refine covered.imp_right ?_
      rintro ⟨other, mem, mentioned⟩
      rcases mem_cons.mp mem with rfl | later
      · rw [said] at mentioned
        cases mentioned
      · exact ⟨other, later, mentioned⟩

end IronGraph.Persistence
