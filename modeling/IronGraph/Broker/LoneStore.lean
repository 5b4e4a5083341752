import IronGraph.Broker.Invariant
import IronGraph.Library.UnaryCode

/-!
A lawful environment to run the broker in: a segment store with room for one batch. What lies in a
segment is found by its index, and a compact record is its number, written in unary next to the
length of its payload.
-/

namespace IronGraph.Broker

open Std Outcome Error Function

instance fieldsCountable : Countable Fields :=
  Injective.countable (show Injective (fun fields : Fields => fields.toList) from
    fun _ _ => ExtTreeMap.toList_inj.mp)

instance digestCountable : Countable Digest :=
  Injective.countable (show Injective Digest.bytes from fun first second same => by
    cases first
    cases second
    simpa using same)

instance ingressCountable : Countable IngressMetadata := by
  let parts : IngressMetadata →
      (Option Int × Option Bytes × Fields × Bool) ⊕ (String × String × Fields × Fields × Nat)
    | .kafka createTimeMs key headers valueIsNull => .inl (createTimeMs, key, headers, valueIsNull)
    | .amqp exchange routingKey properties headers deathCount =>
      .inr (exchange, routingKey, properties, headers, deathCount)
  have injective : Injective parts := by
    intro first second same
    cases first <;> cases second <;> simp_all [parts]
  exact injective.countable

instance payloadSegmentRecordCountable : Countable PayloadSegmentRecord := by
  let parts (record : PayloadSegmentRecord) : ProjectId × MessageId × Int × IngressMetadata ×
      Bytes × Digest :=
    (record.project, record.id, record.resolvedTimeMs, record.ingress, record.payload, record.checksum)
  have injective : Injective parts := by
    rintro ⟨⟩ ⟨⟩ same
    simpa [parts] using same
  exact injective.countable

noncomputable def recordCode : PayloadSegmentRecord → Nat :=
  Classical.choose (exists_injective_nat PayloadSegmentRecord)

theorem recordCode_injective : Injective recordCode :=
  Classical.choose_spec (exists_injective_nat PayloadSegmentRecord)

def payloadTotal (batch : List SegmentRecord) : Nat := (batch.map (·.payload.length)).sum

noncomputable def loneStore (batch : List SegmentRecord) : Runtime where
  hash _ := Digest.zero
  encodeCompact record := .ok (List.replicate (Nat.pair (recordCode record) record.payload.length) 0)
  decodeCompact bytes := orElse (partialInv recordCode (Nat.unpair bytes.length).1)
    (internal "compact record is unknown")
  writeImmutable family projectId records :=
    if records = batch ∧ batch.length + payloadTotal batch < u64Limit then
      .ok
        ({ family, projectId, fileName := "lone"
           bytes := batch.length + payloadTotal batch, checksum := Digest.zero },
          batch.mapIdx fun index _ => { offset := index, bytes := payloadTotal batch })
    else .error (invalidData "payload length overflow")
  readRecordAt _ location := orElse batch[location.offset]? (internal "record is absent")

theorem loneStore_lawful (batch : List SegmentRecord) : Lawful (loneStore batch) := by
  refine ⟨?_, ?_⟩
  · intro project recs _
    change Meets (if _ then _ else _) _ _
    split
    next fits =>
      obtain ⟨rfl, small⟩ := fits
      refine ⟨rfl, rfl, small, List.length_mapIdx, ?_⟩
      intro index loc record located found
      rw [List.getElem?_mapIdx, found] at located
      obtain rfl := Option.some.inj located
      have inside : index < recs.length := (List.getElem?_eq_some_iff.mp found).1
      refine ⟨List.le_sum_of_mem (List.mem_map_of_mem (List.mem_of_getElem? found)), ?_,
        orElse_eq_ok.mpr found⟩
      exact Nat.add_le_add_right (Nat.le_of_lt inside) _
    · simp [Meets, Overflow, overflowErrors]
  · intro record
    refine ⟨_, rfl, ?_, ?_⟩
    · change orElse _ _ = _
      rw [orElse_eq_ok, List.length_replicate, Nat.unpair_pair]
      exact Function.partialInv_left recordCode_injective record
    · rw [List.length_replicate]
      exact Nat.right_le_pair _ _

noncomputable def sevenStore :
    Runtime := loneStore [{ kind := brokerRawAmqpPayloadSegmentKind, payload := [7] }]

def declareQueue (project : ProjectId) (queue : String) (exclusiveOwner : Option Uuid) :
    BrokerCommand :=
  .createQueue project queue .classic true false none none
    { maxAgeMs := none, maxBytes := none } exclusiveOwner false

def publishSeven (project : ProjectId) (queue : String) : BrokerCommand :=
  .publishAmqp project "" queue false 10 ∅ ∅ [7]

end IronGraph.Broker
