import RankedKeys.CommandLine.Report
import RankedKeys.Keygen.KeyShare
import RankedKeys.Proofs.Curve.Secp256k1
import RankedKeys.Proofs.Recovery.ConfigFile
import RankedKeys.Proofs.Recovery.Relisting

/-!
# Key shares recover their key from a file

Key shares that recover a key are written down as a configuration, with their numbers in decimal
form and their names in quotes, and read back from the file as the same configuration. Its peers
come in the order of their names then, which need not be that of the shares; the key does not depend
on it.

## Main results

* `KeyShare.exists_toPeerRecord`: the record of a share holds its numbers
* `RecoveryConfig.exists_ofKeyShares`: key shares are written down as a configuration
* `RecoveryConfig.recover_of_save`: key shares that recover a key recover it from their file
* `CommandLine.runRecover_of_reportShares`: the command that recovers a key finds the one that has
  been generated
-/

namespace RankedKeys

variable {c : Curve}

/-! ## The configuration of key shares -/

/-- **The record of a share** holds its numbers, and those of its position. -/
theorem KeyShare.exists_toPeerRecord {k : KeyShare c} {peer : RankedShare c.Scalar}
    (h : k.rankedShare = .ok peer) :
    ∃ record, k.toPeerRecord = .ok record ∧ record.id = k.selfId ∧
      Reads c record.content peer := by
  obtain ⟨position, hposition, hpeer⟩ := bind_eq_ok_iff.mp h
  obtain rfl := pure_eq_ok_iff.mp hpeer
  refine ⟨_, bind_eq_ok_iff.mpr ⟨position, hposition, rfl⟩, rfl, ?_⟩
  exact ⟨Curve.scalarOfDecimal_scalarToDecimal _, Curve.scalarOfDecimal_scalarToDecimal _, rfl⟩

/-- The records of some shares. -/
theorem exists_mapM_toPeerRecord {shares : List (KeyShare c)} {peers : List (RankedShare c.Scalar)}
    (h : shares.mapM KeyShare.rankedShare = .ok peers) :
    ∃ records, shares.mapM KeyShare.toPeerRecord = .ok records ∧
      records.map (·.id) = shares.map (·.selfId) ∧
      List.Forall₂ (Reads c) (records.map (·.content)) peers := by
  rw [mapM_eq_ok_iff] at h
  simp only [mapM_eq_ok_iff]
  induction h with
  | nil => exact ⟨[], .nil, rfl, .nil⟩
  | cons first _ ih =>
    obtain ⟨records, hrecords, hids, hreads⟩ := ih
    obtain ⟨record, hrecord, hid, hread⟩ := KeyShare.exists_toPeerRecord first
    refine ⟨record :: records, .cons hrecord hrecords, ?_, .cons hread hreads⟩
    rw [List.map_cons, List.map_cons, hid, hids]

namespace RecoveryConfig

/-- **Key shares** that recover a key are written down as a configuration that recovers it. -/
theorem exists_ofKeyShares {first : KeyShare .secp256k1} {rest : List (KeyShare .secp256k1)}
    {secret : Curve.secp256k1.Scalar} (distinct : ((first :: rest).map (·.selfId)).Nodup)
    (recovers : recoverFromShares first (first :: rest) = .ok secret) :
    ∃ config, ofKeyShares (first :: rest) = .ok config ∧
      config.recover = .ok ⟨.secp256k1, Curve.scalarBytes secret, first.publicKey.toBytes⟩ := by
  obtain ⟨peers, hpeers, hsecret⟩ := bind_eq_ok_iff.mp recovers
  obtain ⟨records, hrecords, hids, hreads⟩ := exists_mapM_toPeerRecord hpeers
  let config : RecoveryConfig := ⟨some CurveName.secp256k1.label, first.threshold,
    ⟨first.publicKey.toDecimal.1, first.publicKey.toDecimal.2⟩, records⟩
  refine ⟨config, bind_eq_ok_iff.mpr ⟨records, hrecords, rfl⟩, ?_⟩
  have henough : ¬ records.length < 2 := by
    have hlength := hreads.length_eq
    rw [List.length_map] at hlength
    rw [hlength]
    exact (guard_eq_ok_iff.mp hsecret).1
  have hcurve : CurveName.parse CurveName.secp256k1.label = .ok .secp256k1 := by decide +kernel
  -- The peers are read in the order of their names.
  have hnames : (config.peers.map (·.id)).Nodup := hids ▸ distinct
  obtain ⟨listed, hlisted, hrecover⟩ := recoverOn_eq hreads hnames
  have hlistedSecret := (recoverKey_perm hlisted).trans hsecret
  refine guard_eq_ok_iff.mpr ⟨henough, bind_eq_ok_iff.mpr ⟨_, hcurve, ?_⟩⟩
  refine bind_eq_ok_iff.mpr ⟨(secret, first.publicKey), hrecover.trans ?_, rfl⟩
  exact bind_eq_ok_iff.mpr ⟨_, PublicKey.ofDecimal_toDecimal _,
    bind_eq_ok_iff.mpr ⟨secret, hlistedSecret, rfl⟩⟩

/-! ## Files -/

variable {m : Type → Type} [Monad m] [LawfulMonad m] [Machine m]

/-- **Key shares recover their key from a file**: key shares of different parties, whatever their
names, that recover a key by themselves can be written down as a configuration; on a machine that
keeps files this can be saved and loaded, and what has been loaded recovers the same key, with the
public key that the first share shows. -/
theorem recover_of_save {path : String} (keeps : Machine.Keeps m path)
    {first : KeyShare .secp256k1} {rest : List (KeyShare .secp256k1)}
    {secret : Curve.secp256k1.Scalar} (distinct : ((first :: rest).map (·.selfId)).Nodup)
    (recovers : recoverFromShares first (first :: rest) = .ok secret) :
    ∃ (config : RecoveryConfig) (recovered : RecoveredKey),
      ofKeyShares (first :: rest) = .ok config ∧
      (do let saved ← config.save (m := m) path
          let loaded ← load path
          pure (saved, loaded)) =
        (do let _ ← Machine.writeFile path (Bytes.ofText config.print)
            pure (.ok (), .ok config)) ∧
      config.recover = .ok recovered ∧ recovered.curve = .secp256k1 ∧
      recovered.privateKey = Bytes.ofNat 32 secret.val ∧
      recovered.publicKey = first.publicKey.toBytes ∧
      recovered.publicKey.toHex = first.publicKeyHex := by
  obtain ⟨config, hconfig, hrecover⟩ := exists_ofKeyShares distinct recovers
  exact ⟨config, _, hconfig, save_load keeps config fun saved loaded => pure (saved, loaded),
    hrecover, rfl, rfl, rfl, rfl⟩

/-- A share of `1 + 2·x` for one of two parties whose names need escapes, at one and minus one. -/
def shareOfTwo (selfId : PartyId) (share : Curve.secp256k1.Scalar) : KeyShare .secp256k1 where
  sessionId := .derive ["a\n", "b\""] []
  selfId
  threshold := 2
  share
  publicKey := secp256k1Key
  positions := .ofList [("b\"", ⟨1, 0⟩), ("a\n", ⟨-1, 0⟩)]
  partialKeys := .empty

/-- The two shares, which are not in the order of the names, recover the scalar one from a file in
an empty folder. -/
theorem recover_of_save_secp256k1 :
    ∃ (config : RecoveryConfig) (recovered : RecoveredKey) (desk : Desk),
      config.peers.map (·.id) = ["b\"", "a\n"] ∧
      (do let saved ← config.save (m := StateM Desk) "config.json"
          let loaded ← load "config.json"
          pure (saved, loaded)) ⟨⟨[]⟩, fun _ => 0, 0⟩ = ((.ok (), .ok config), desk) ∧
      config.recover = .ok recovered ∧ recovered.privateKey = Bytes.ofNat 32 1 := by
  have place : Folder.place ⟨[]⟩ "config.json" = .ok (.entry (.around 0) "config.json") := by
    decide +kernel
  have distinct : ([shareOfTwo "b\"" 3, shareOfTwo "a\n" (-1)].map (·.selfId)).Nodup := by decide
  have recovers : recoverFromShares (shareOfTwo "b\"" 3)
      [shareOfTwo "b\"" 3, shareOfTwo "a\n" (-1)] = .ok 1 := by decide +kernel
  obtain ⟨config, recovered, hconfig, hfile, hrecover, -, hprivate, -⟩ :=
    recover_of_save (m := StateM Desk) (Desk.keeps place (by decide)) distinct recovers
  have hids : (ofKeyShares [shareOfTwo "b\"" 3, shareOfTwo "a\n" (-1)]).toOption.map
      (·.peers.map (·.id)) = some ["b\"", "a\n"] := by decide +kernel
  rw [hconfig] at hids
  exact ⟨config, recovered, _, Option.some.inj hids, congrFun hfile _, hrecover, hprivate⟩

end RecoveryConfig

/-! ## Commands -/

namespace CommandLine

/-- What is read off shares and their positions. -/
theorem exists_mapM_position {shares : List (KeyShare c)} {peers : List (RankedShare c.Scalar)}
    (h : shares.mapM KeyShare.rankedShare = .ok peers) {row : Type}
    (toRow : KeyShare c → Parameter c.Scalar → row) :
    ∃ rows, (shares.mapM fun k => do
      let position ← k.position
      pure (toRow k position)) = .ok rows := by
  rw [mapM_eq_ok_iff] at h
  simp only [mapM_eq_ok_iff]
  induction h with
  | nil => exact ⟨[], .nil⟩
  | cons first _ ih =>
    obtain ⟨rows, hrows⟩ := ih
    obtain ⟨position, hposition, -⟩ := bind_eq_ok_iff.mp first
    exact ⟨_, .cons (bind_eq_ok_iff.mpr ⟨position, hposition, rfl⟩) hrows⟩

/-- Shares with positions can be shown. -/
theorem exists_showShares {shares : List (KeyShare c)} {peers : List (RankedShare c.Scalar)}
    (h : shares.mapM KeyShare.rankedShare = .ok peers) (json : Bool) (first : KeyShare c) :
    ∃ output, showShares json first shares = .ok output := by
  obtain ⟨rows, hrows⟩ := exists_mapM_position h fun k position => (k.selfId,
    Curve.scalarToDecimal k.share, Curve.scalarToDecimal position.x, position.rank)
  cases json with
  | true => exact ⟨_, bind_eq_ok_iff.mpr ⟨rows, hrows, rfl⟩⟩
  | false => exact ⟨_, bind_eq_ok_iff.mpr ⟨rows, hrows, rfl⟩⟩

/-- The report of shares that have been shown, by how the file was saved. -/
def Report.ofSaved (output : String) : Except Error Unit → Report
  | .error e => ⟨output, [e.message]⟩
  | .ok () => .success output

/-- The report of a recovery, by how the file was loaded. -/
def Report.ofLoaded (json : Bool) (path : String) : Except Error RecoveryConfig → Report
  | .error e => .failed [s!"Failed to load {path}", e.message]
  | .ok config => .ofResult (config.recover.map (showKey json))

variable {m : Type → Type} [Monad m] [Machine m]

/-- Shares that recover a key are reported, and their configuration is saved. -/
theorem reportShares_eq {first : KeyShare .secp256k1} {rest : List (KeyShare .secp256k1)}
    {secret : Curve.secp256k1.Scalar} {config : RecoveryConfig} {json : Bool} {output : String}
    (recovers : recoverFromShares first (first :: rest) = .ok secret)
    (shows : showShares json first (first :: rest) = .ok output)
    (config_eq : RecoveryConfig.ofKeyShares (first :: rest) = .ok config) (path : String) :
    reportShares (m := m) json (some path) (first :: rest) =
      config.save path >>= fun saved => pure (.ofSaved output saved) := by
  obtain ⟨peers, hpeers, -⟩ := bind_eq_ok_iff.mp recovers
  rw [reportShares]
  simp only [hpeers, recovers, shows, config_eq]
  refine bind_congr fun saved => ?_
  rcases saved with e | ⟨⟩ <;> rfl

/-- What has been loaded is all that the report of a recovery depends on. -/
theorem runRecover_eq (json : Bool) (path : String) :
    runRecover (m := m) json path =
      RecoveryConfig.load path >>= fun loaded => pure (.ofLoaded json path loaded) := by
  rw [runRecover]
  refine bind_congr fun loaded => ?_
  cases loaded <;> rfl

/-- **The command that recovers a key** finds what the command that generates one has written:
shares that are reported and written to a file are recovered from it, with the same public key. -/
theorem runRecover_of_reportShares [LawfulMonad m] {path : String} (keeps : Machine.Keeps m path)
    {first : KeyShare .secp256k1} {rest : List (KeyShare .secp256k1)}
    {secret : Curve.secp256k1.Scalar} (distinct : ((first :: rest).map (·.selfId)).Nodup)
    (recovers : recoverFromShares first (first :: rest) = .ok secret) (json json' : Bool) :
    ∃ (output : String) (config : RecoveryConfig),
      showShares json first (first :: rest) = .ok output ∧
      (do let report ← reportShares (m := m) json (some path) (first :: rest)
          let answer ← runRecover json' path
          pure (report, answer)) =
        (do let _ ← Machine.writeFile path (Bytes.ofText config.print)
            pure (.success output, .success (showKey json'
              ⟨.secp256k1, Curve.scalarBytes secret, first.publicKey.toBytes⟩))) := by
  obtain ⟨config, hconfig, hrecover⟩ := RecoveryConfig.exists_ofKeyShares distinct recovers
  obtain ⟨peers, hpeers, -⟩ := bind_eq_ok_iff.mp recovers
  obtain ⟨output, houtput⟩ := exists_showShares hpeers json first
  refine ⟨output, config, houtput, ?_⟩
  rw [reportShares_eq recovers houtput hconfig, runRecover_eq]
  simp only [bind_assoc, pure_bind]
  refine (RecoveryConfig.save_load keeps config fun saved loaded =>
    pure (Report.ofSaved output saved, Report.ofLoaded json' path loaded)).trans ?_
  simp only [Report.ofSaved, Report.ofLoaded, hrecover]
  rfl

end CommandLine

end RankedKeys
