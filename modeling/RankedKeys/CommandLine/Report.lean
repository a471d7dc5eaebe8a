import RankedKeys.CommandLine.Command
import RankedKeys.Json.Writer
import RankedKeys.Keygen.Ensemble
import RankedKeys.Recovery.ConfigFile

/-!
# Running commands

## Main definitions

* `Report`: what a command prints, and why it failed
* `Command.run`: runs a command on a machine
* `answer`: what a command line is answered with
-/

namespace RankedKeys.CommandLine

/-- What a command prints, and why it failed, outermost reason first. -/
structure Report where
  output : String
  failure : List String
  deriving DecidableEq

namespace Report

/-- A report of success. -/
def success (output : String) : Report := ⟨output, []⟩

/-- A report of failure. -/
def failed (reasons : List String) : Report := ⟨"", reasons⟩

/-- A report that nothing went wrong, or of an error. -/
def ofResult (result : Except Error String) : Report :=
  match result with
  | .ok output => success output
  | .error e => failed [e.message]

/-- The text of a failure: the reason, and the reasons behind it. -/
def failureText : List String → String
  | [] => ""
  | [reason] => s!"Error: {reason}\n"
  | [reason, cause] => s!"Error: {reason}\n\nCaused by:\n    {cause}\n"
  | reason :: causes =>
    s!"Error: {reason}\n\nCaused by:\n" ++
      String.join (causes.zipIdx.map fun (cause, i) => s!"    {i}: {cause}\n")

end Report

/-- What a recovered key is shown as. -/
def showKey (json : Bool) (key : RecoveredKey) : String :=
  let privateKey := key.privateKey.toHex
  let publicKey := key.publicKey.toHex
  if json then
    (Json.obj
      [("curve", .str key.curve.label), ("private_key", .str privateKey),
       ("public_key", .str publicKey)]).pretty ++ "\n"
  else
    s!"Curve: {key.curve.label}\nPrivate Key: {privateKey}\nPublic Key: {publicKey}\n"

/-- What the outcome of a key generation is shown as. -/
def showShares {c : Curve} (json : Bool) (first : KeyShare c) (shares : List (KeyShare c)) :
    Except Error String := do
  let rows ← shares.mapM fun k => do
    let position ← k.position
    pure (k.selfId, Curve.scalarToDecimal k.share, Curve.scalarToDecimal position.x, position.rank)
  if json then
    let party : String × String × String × UInt32 → Json := fun (id, share, x, rank) => .obj
      [("id", .str id), ("share", .str share), ("bk_x", .str x), ("bk_rank", .natural rank.toNat)]
    pure ((Json.obj
      [("public_key", .str first.publicKeyHex), ("threshold", .natural first.threshold.toNat),
       ("parties", .array (rows.map party))]).pretty ++ "\n")
  else
    let party : String × String × String × UInt32 → String := fun (id, share, x, rank) =>
      s!"  {id}:\n    Share: {share}\n    BK: x = {x}, rank = {rank}\n"
    pure (s!"Public Key: {first.publicKeyHex}\nThreshold: {first.threshold}\n" ++
      String.join (rows.map party))

section Machine

variable {m : Type → Type} [Monad m] [Machine m]

/-- Random blocks for a number of draws, with a few to spare. -/
def randomEntropy (draws : Nat) : m Entropy := do
  let bytes ← Machine.randomBytes (32 * (draws + 8))
  pure (.ofBlocks ((Sha256.pieces 31 bytes).map Bytes.toNat))

/-- Parties in order; each is given random blocks of its own. -/
def assembleAll {α : Type} (draws : Nat)
    (create : α → Entropy → Except Error (PartyId × Party .secp256k1)) :
    List α → Ensemble .secp256k1 → m (Except Error (Ensemble .secp256k1))
  | [], s => pure (.ok s)
  | a :: rest, s => do
    let entropy ← randomEntropy draws
    match create a entropy with
    | .error e => pure (.error e)
    | .ok (id, p) => assembleAll draws create rest (s.add id p true)

/-- The key shares of all parties, or the first error, by the names of the parties. -/
def outcomes (s : Ensemble .secp256k1) : Except Error (List (KeyShare .secp256k1)) := do
  let shares ← s.run.mapM id
  pure (sortBy (fun k l => Text.atMost k.selfId l.selfId) shares)

/-- Generates a key. -/
def generateShares (settings : Generation) (ids : List PartyId) (ranks : List UInt32) :
    m (Except Error (List (KeyShare .secp256k1))) := do
  let sessionId := SessionId.derive ids (← Machine.randomBytes 32)
  let draws := 1 + min settings.threshold.toNat ids.length
  let create : PartyId × UInt32 → Entropy → Except Error (PartyId × Party .secp256k1) :=
    fun (id, rank) entropy => do
      let party ← Party.generate
        { sessionId, selfId := id, partyIds := ids, threshold := settings.threshold, rank }
        (.create id ids) entropy
      pure (id, party)
  match ← assembleAll draws create (ids.zip ranks) (.empty true) with
  | .error e => pure (.error e)
  | .ok s => pure (outcomes s)

/-- Refreshes key shares. -/
def refreshShares (ids : List PartyId) (shares : List (KeyShare .secp256k1)) :
    m (Except Error (List (KeyShare .secp256k1))) := do
  let sessionId := SessionId.derive ids (← Machine.randomBytes 32)
  let create : KeyShare .secp256k1 → Entropy → Except Error (PartyId × Party .secp256k1) :=
    fun previous entropy => do
      let party ← Party.refresh previous sessionId (.create previous.selfId ids) entropy
      pure (previous.selfId, party)
  match ← assembleAll ids.length create shares (.empty true) with
  | .error e => pure (.error e)
  | .ok s => pure (outcomes s)

/-- Checks that key shares recover their public key, and shows and writes them. -/
def reportShares (json : Bool) (out : Option String) (shares : List (KeyShare .secp256k1)) :
    m Report := do
  match shares with
  | [] => pure (.failed ["No DKG results"])
  | first :: _ =>
    match shares.mapM KeyShare.rankedShare with
    | .error e => pure (.failed [e.message])
    | .ok _ =>
      match recoverFromShares first shares, showShares json first shares with
      | .error e, _ =>
        pure (.failed ["Generated shares do not recover the public key", e.message])
      | _, .error e => pure (.failed [e.message])
      | .ok _, .ok output =>
        match out, RecoveryConfig.ofKeyShares shares with
        | none, _ => pure (.success output)
        | some _, .error e => pure ⟨output, [e.message]⟩
        | some path, .ok config =>
          match ← config.save path with
          | .error e => pure ⟨output, [e.message]⟩
          | .ok () => pure (.success output)

/-- Generates a key among local parties. -/
def runGenerate (json : Bool) (settings : Generation) : m Report := do
  let n := settings.parties.toNat
  let ranks := if settings.ranks.isEmpty then List.replicate n 0 else settings.ranks
  if ranks.length ≠ n then
    pure (.failed [s!"Expected {n} ranks, got {ranks.length}"])
  else
    let ids := (List.range n).map fun i => s!"id-{i}"
    match ← generateShares settings ids ranks with
    | .error e => pure (.failed [e.message])
    | .ok shares =>
      if settings.refresh then
        match ← refreshShares ids shares with
        | .error e => pure (.failed [e.message])
        | .ok shares => reportShares json settings.out shares
      else reportShares json settings.out shares

/-- Recovers a key from a file. -/
def runRecover (json : Bool) (path : String) : m Report := do
  match ← RecoveryConfig.load path with
  | .error e => pure (.failed [s!"Failed to load {path}", e.message])
  | .ok config => pure (.ofResult (config.recover.map (showKey json)))

/-- Runs a command. -/
def Command.run : Command → m Report
  | .recover json path => runRecover json path
  | .generate json settings => runGenerate json settings

end Machine

end RankedKeys.CommandLine
