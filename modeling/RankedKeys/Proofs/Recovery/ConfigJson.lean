import RankedKeys.Proofs.Json.Record
import RankedKeys.Proofs.Json.Writer
import RankedKeys.Recovery.ConfigJson

/-!
# Configurations as JSON values

Every record of a recovery configuration is read back from the JSON value that it is written as,
whatever its strings are and however many peers it has, and this value can be written.

## Main results

* `RecoveryConfig.ofJson?_toJson`: configurations are read back from their values
* `RecoveryConfig.written_toJson`: the values of configurations can be written
-/

namespace RankedKeys

open Json (Written)

theorem KeyRecord.ofJson?_toJson (r : KeyRecord) : ofJson? r.toJson = some r := by
  rw [ofJson?, toJson, Json.fields?_obj rfl (by decide)]
  rfl

theorem KeyRecord.written_toJson (r : KeyRecord) : Written r.toJson := by
  refine .obj ?_
  simp only [List.forall_mem_cons]
  exact ⟨.str _, .str _, fun _ hm => absurd hm List.not_mem_nil⟩

theorem PositionRecord.ofJson?_toJson (r : PositionRecord) : ofJson? r.toJson = some r := by
  rw [ofJson?, toJson, Json.fields?_obj rfl (by decide)]
  simp only [List.map_cons, List.map_nil, bind, Option.bind, Json.word32?_natural]
  rfl

theorem PositionRecord.written_toJson (r : PositionRecord) : Written r.toJson := by
  refine .obj ?_
  simp only [List.forall_mem_cons]
  exact ⟨.str _, .natural _, fun _ hm => absurd hm List.not_mem_nil⟩

theorem PeerRecord.ofJson?_toJson (r : PeerRecord) : ofJson? r.toJson = some r := by
  rw [ofJson?, toJson, Json.fields?_obj rfl (by decide)]
  simp only [List.map_cons, List.map_nil, bind, Option.bind, PositionRecord.ofJson?_toJson]
  rfl

theorem PeerRecord.written_toJson (r : PeerRecord) : Written r.toJson := by
  refine .obj ?_
  simp only [List.forall_mem_cons]
  exact ⟨.str _, .str _, r.position.written_toJson, fun _ hm => absurd hm List.not_mem_nil⟩

namespace RecoveryConfig

/-- **Configurations** are read back from their values. -/
theorem ofJson?_toJson (config : RecoveryConfig) : ofJson? config.toJson = some config := by
  rcases config with ⟨curve, threshold, key, peers⟩
  rw [ofJson?, toJson, Json.fields?_obj rfl (by decide)]
  simp only [List.map_cons, List.map_nil, bind, Option.bind, Json.word64?_natural,
    KeyRecord.ofJson?_toJson, Json.listOf?_array PeerRecord.ofJson?_toJson]
  cases curve <;> rfl

/-- **The values of configurations** can be written. -/
theorem written_toJson (config : RecoveryConfig) : Written config.toJson := by
  refine .obj ?_
  simp only [List.forall_mem_cons]
  refine ⟨?_, .natural _, config.key.written_toJson, .array ?_,
    fun _ hm => absurd hm List.not_mem_nil⟩
  · cases config.curve with
    | none => exact .null
    | some name => exact .str name
  · exact List.forall_mem_map.mpr fun peer _ => peer.written_toJson

end RecoveryConfig

end RankedKeys
