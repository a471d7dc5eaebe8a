import RankedKeys.Json.Record
import RankedKeys.Json.Writer
import RankedKeys.Recovery.Config

/-!
# Recovery configurations as JSON

The fields stand in the order `curve`, `threshold`, `pubkey`, `peers`. A configuration without a
curve is written with `null`, and both an absent curve and an absent rank may be left out.

## Main definitions

* `RecoveryConfig.toJson`, `RecoveryConfig.ofJson?`
* `RecoveryConfig.print`, `RecoveryConfig.parse`: the text of a configuration
-/

namespace RankedKeys

namespace KeyRecord

/-- The two coordinates. -/
def toJson (r : KeyRecord) : Json :=
  .obj [("x", .str r.x), ("y", .str r.y)]

/-- Reads the two coordinates. -/
def ofJson? (v : Json) : Option KeyRecord := do
  match ← v.fields? [Json.required "x", Json.required "y"] with
  | [x, y] => pure { x := ← x.text?, y := ← y.text? }
  | _ => none

end KeyRecord

namespace PositionRecord

/-- The coordinate and the rank. -/
def toJson (r : PositionRecord) : Json :=
  .obj [("x", .str r.x), ("rank", .natural r.rank.toNat)]

/-- Reads a position; the rank is zero if it is left out. -/
def ofJson? (v : Json) : Option PositionRecord := do
  match ← v.fields? [Json.required "x", Json.optional "rank" (.natural 0)] with
  | [x, rank] => pure { x := ← x.text?, rank := ← rank.word32? }
  | _ => none

end PositionRecord

namespace PeerRecord

/-- The name, the share and the position. -/
def toJson (r : PeerRecord) : Json :=
  .obj [("id", .str r.id), ("share", .str r.share), ("bk", r.position.toJson)]

/-- Reads the record of a peer. -/
def ofJson? (v : Json) : Option PeerRecord := do
  match ← v.fields? [Json.required "id", Json.required "share", Json.required "bk"] with
  | [id, share, position] =>
    pure { id := ← id.text?, share := ← share.text?, position := ← PositionRecord.ofJson? position }
  | _ => none

end PeerRecord

namespace RecoveryConfig

/-- A configuration as a JSON value. -/
def toJson (config : RecoveryConfig) : Json :=
  .obj
    [("curve", match config.curve with | some name => .str name | none => .null),
     ("threshold", .natural config.threshold.toNat),
     ("pubkey", config.key.toJson),
     ("peers", .array (config.peers.map PeerRecord.toJson))]

/-- Reads a configuration from a JSON value. -/
def ofJson? (v : Json) : Option RecoveryConfig := do
  match ← v.fields? [Json.optional "curve" .null, Json.required "threshold", Json.required "pubkey",
    Json.required "peers"] with
  | [curve, threshold, key, peers] =>
    pure { curve := ← curve.orNull? Json.text?
           threshold := ← threshold.word64?
           key := ← KeyRecord.ofJson? key
           peers := ← peers.listOf? PeerRecord.ofJson? }
  | _ => none

/-- The text of a configuration. -/
def print (config : RecoveryConfig) : String :=
  config.toJson.pretty

/-- Reads a configuration from its text. -/
def parse (text : String) : Except Error RecoveryConfig :=
  match (Json.read? text).bind ofJson? with
  | some config => .ok config
  | none => .error (.deserialization "not a recovery configuration")

end RecoveryConfig

end RankedKeys
