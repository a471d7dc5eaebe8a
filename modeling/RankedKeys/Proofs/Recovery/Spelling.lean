import RankedKeys.Proofs.Json.Form
import RankedKeys.Proofs.Json.Grammar
import RankedKeys.Recovery.ConfigJson

/-!
# The spellings of a recovery configuration

Each record of a configuration may be written in any of its forms, whatever forms the others have,
and its value in any text that spells it, with blanks between the tokens and escapes in strings. All
these texts are read as the configuration, and what is skipped on the way is never taken for a
field. A text in which an object repeats a field of its record is refused.

## Main definitions

* `KeyRecord.Form`, `PositionRecord.Form`, `PeerRecord.Form`, `RecoveryConfig.Form`: the forms of
  the records of a configuration
* `RecoveryConfig.Repeats`: a value in which an object repeats a field of its record

## Main results

* `RecoveryConfig.ofJson?_eq_some_iff`: a configuration is read from its forms
* `RecoveryConfig.Form.not_repeats`: the forms of a configuration do not repeat a field
* `RecoveryConfig.parse_of_spelling`: the answers to a text that spells a value
-/

namespace RankedKeys

open Json (Gives required)

/-! ## Keys and positions -/

/-- The fields of a key. -/
def KeyRecord.fields : List Json.Field := [required "x", required "y"]

/-- **The forms of a key**. -/
def KeyRecord.Form (r : KeyRecord) (v : Json) : Prop :=
  Json.Form fields [.str r.x, .str r.y] v

theorem KeyRecord.ofJson?_eq_some_iff {v : Json} {r : KeyRecord} :
    ofJson? v = some r ↔ r.Form v := by
  refine (Json.fields?_bind_eq_some_iff fields (by decide)
    (fun values => values = [.str r.x, .str r.y]) fun values => ?_).trans exists_eq_left
  constructor
  · intro h
    split at h
    · simp only [Option.bind_eq_bind, Option.bind_eq_some_iff, Option.pure_def, Option.some_inj,
        Json.text?_eq_some_iff] at h
      obtain ⟨x, rfl, y, rfl, rfl⟩ := h
      rfl
    · cases h
  · rintro rfl
    rfl

/-- The fields of a position. -/
def PositionRecord.fields : List Json.Field := [required "x", Json.optional "rank" (.natural 0)]

/-- **The forms of a position**: a rank of zero may be left out. -/
def PositionRecord.Form (r : PositionRecord) (v : Json) : Prop :=
  Json.Form fields [.str r.x, .natural r.rank.toNat] v

theorem PositionRecord.ofJson?_eq_some_iff {v : Json} {r : PositionRecord} :
    ofJson? v = some r ↔ r.Form v := by
  refine (Json.fields?_bind_eq_some_iff fields (by decide)
    (fun values => values = [.str r.x, .natural r.rank.toNat]) fun values => ?_).trans
    exists_eq_left
  constructor
  · intro h
    split at h
    · simp only [Option.bind_eq_bind, Option.bind_eq_some_iff, Option.pure_def, Option.some_inj,
        Json.text?_eq_some_iff, Json.word32?_eq_some_iff] at h
      obtain ⟨x, rfl, rank, rfl, rfl⟩ := h
      rfl
    · cases h
  · rintro rfl
    simp only [Json.text?_eq_some_iff.mpr rfl, Json.word32?_eq_some_iff.mpr rfl]
    rfl

/-! ## Peers -/

/-- The fields of the record of a peer. -/
def PeerRecord.fields : List Json.Field := [required "id", required "share", required "bk"]

/-- **The forms of the record of a peer**, with its position in any form. -/
def PeerRecord.Form (r : PeerRecord) (v : Json) : Prop :=
  ∃ position, r.position.Form position ∧ Json.Form fields [.str r.id, .str r.share, position] v

theorem PeerRecord.ofJson?_eq_some_iff {v : Json} {r : PeerRecord} :
    ofJson? v = some r ↔ r.Form v := by
  refine (Json.fields?_bind_eq_some_iff fields (by decide)
    (fun values => ∃ position, r.position.Form position ∧
      values = [.str r.id, .str r.share, position]) fun values => ?_).trans ?_
  · constructor
    · intro h
      split at h
      · simp only [Option.bind_eq_bind, Option.bind_eq_some_iff, Option.pure_def, Option.some_inj,
          Json.text?_eq_some_iff, PositionRecord.ofJson?_eq_some_iff] at h
        obtain ⟨id, rfl, share, rfl, position, hposition, rfl⟩ := h
        exact ⟨_, hposition, rfl⟩
      · cases h
    · rintro ⟨position, hposition, rfl⟩
      simp only [Json.text?_eq_some_iff.mpr rfl, PositionRecord.ofJson?_eq_some_iff.mpr hposition]
      rfl
  · constructor
    · rintro ⟨_, ⟨position, hposition, rfl⟩, hform⟩
      exact ⟨position, hposition, hform⟩
    · rintro ⟨position, hposition, hform⟩
      exact ⟨_, ⟨position, hposition, rfl⟩, hform⟩

namespace RecoveryConfig

/-! ## Configurations -/

/-- The fields of a configuration. -/
def fields : List Json.Field :=
  [Json.optional "curve" .null, required "threshold", required "pubkey", required "peers"]

/-- The values of these fields, by the forms of the key and the peers. -/
def fieldValues (config : RecoveryConfig) (key : Json) (peers : List Json) : List Json :=
  [(config.curve.map .str).getD .null, .natural config.threshold.toNat, key, .array peers]

/-- **The forms of a configuration**, with its key and its peers in any of theirs: an absent curve
may be left out. -/
def Form (config : RecoveryConfig) (v : Json) : Prop :=
  ∃ key peers, config.key.Form key ∧ List.Forall₂ PeerRecord.Form config.peers peers ∧
    Json.Form fields (config.fieldValues key peers) v

theorem listOf?_peers_eq_some_iff {v : Json} {list : List PeerRecord} :
    v.listOf? PeerRecord.ofJson? = some list ↔
      ∃ peers, v = .array peers ∧ List.Forall₂ PeerRecord.Form list peers := by
  simp only [Json.listOf?_eq_some_iff_forall₂, PeerRecord.ofJson?_eq_some_iff]
  refine exists_congr fun peers => and_congr_right fun _ => ?_
  exact ⟨List.Forall₂.flip, List.Forall₂.flip⟩

/-- **A configuration is read** from its forms, and from nothing else. -/
theorem ofJson?_eq_some_iff {v : Json} {config : RecoveryConfig} :
    ofJson? v = some config ↔ config.Form v := by
  refine (Json.fields?_bind_eq_some_iff fields (by decide)
    (fun values => ∃ key peers, config.key.Form key ∧
      List.Forall₂ PeerRecord.Form config.peers peers ∧ values = config.fieldValues key peers)
    fun values => ?_).trans ?_
  · have hcurve : ∀ {v : Json} {curve : Option String},
        v.orNull? Json.text? = some curve ↔ v = (curve.map .str).getD .null :=
      Json.orNull?_eq_some_iff Json.text?_eq_some_iff fun _ => nofun
    constructor
    · intro h
      split at h
      · simp only [Option.bind_eq_bind, Option.bind_eq_some_iff, Option.pure_def, Option.some_inj,
          hcurve, Json.word64?_eq_some_iff, KeyRecord.ofJson?_eq_some_iff,
          listOf?_peers_eq_some_iff] at h
        obtain ⟨curve, rfl, threshold, rfl, key, hkey, list, ⟨peers, rfl, hpeers⟩, rfl⟩ := h
        exact ⟨_, peers, hkey, hpeers, rfl⟩
      · cases h
    · rintro ⟨key, peers, hkey, hpeers, rfl⟩
      simp only [fieldValues, hcurve.mpr rfl, Json.word64?_eq_some_iff.mpr rfl,
        KeyRecord.ofJson?_eq_some_iff.mpr hkey,
        listOf?_peers_eq_some_iff.mpr ⟨peers, rfl, hpeers⟩]
      rfl
  · constructor
    · rintro ⟨_, ⟨key, peers, hkey, hpeers, rfl⟩, hform⟩
      exact ⟨key, peers, hkey, hpeers, hform⟩
    · rintro ⟨key, peers, hkey, hpeers, hform⟩
      exact ⟨_, ⟨key, peers, hkey, hpeers, rfl⟩, hform⟩

/-! ## Repeated fields -/

/-- **A value in which an object repeats a field** of the record that it stands for. -/
inductive Repeats (v : Json) : Prop
  | config (repeats : Json.Repeats fields v)
  | key {key : Json} (gives : Gives fields "pubkey" key v)
    (repeats : Json.Repeats KeyRecord.fields key)
  | peer {peers : List Json} {peer : Json} (gives : Gives fields "peers" (.array peers) v)
    (mem : peer ∈ peers) (repeats : Json.Repeats PeerRecord.fields peer)
  | position {peers : List Json} {peer position : Json}
    (gives : Gives fields "peers" (.array peers) v) (mem : peer ∈ peers)
    (bk : Gives PeerRecord.fields "bk" position peer)
    (repeats : Json.Repeats PositionRecord.fields position)

/-- **A configuration's forms** do not repeat a field, at any depth. -/
theorem Form.not_repeats {config : RecoveryConfig} {v : Json} (h : config.Form v) :
    ¬ Repeats v := by
  obtain ⟨key, peers, hkey, hpeers, hform⟩ := h
  have hnames : (fields.map (·.name)).Nodup := by decide
  have hpeer : ∀ {list : List Json} {peer : Json}, Gives fields "peers" (.array list) v →
      peer ∈ list → ∃ r : PeerRecord, r.Form peer := by
    intro list peer gives mem
    have hzip := hform.mem_zip_of_gives hnames (by decide) gives
    obtain rfl : list = peers := by
      simpa [fields, fieldValues, Json.optional, required] using hzip
    obtain ⟨r, -, hr⟩ := exists_mem_of_forall₂ hpeers.flip mem
    exact ⟨r, hr⟩
  -- The values that repeat a field would be forms of records themselves.
  intro hrepeats
  cases hrepeats with
  | config repeats => exact hform.not_repeats hnames repeats
  | @key key' gives repeats =>
    have hzip := hform.mem_zip_of_gives hnames (by decide) gives
    obtain rfl : key' = key := by
      simpa [fields, fieldValues, Json.optional, required] using hzip
    exact Json.Form.not_repeats hkey (by decide) repeats
  | peer gives mem repeats =>
    obtain ⟨r, position, -, hr⟩ := hpeer gives mem
    exact hr.not_repeats (by decide) repeats
  | @position _ _ position' gives mem bk repeats =>
    obtain ⟨r, position, hposition, hr⟩ := hpeer gives mem
    have hzip := hr.mem_zip_of_gives (by decide) (by decide) bk
    obtain rfl : position' = position := by
      simpa [PeerRecord.fields, required] using hzip
    exact Json.Form.not_repeats hposition (by decide) repeats

/-! ## Texts -/

/-- What spells a value is read as the configuration that the value is a form of. -/
theorem parse_eq_ok_iff_form {text : String} {v : Json}
    (spells : Json.Spells text.toList (Json.tokens v)) {config : RecoveryConfig} :
    parse text = .ok config ↔ config.Form v := by
  rw [parse, Json.read?_of_spells spells, Option.bind_some, ← ofJson?_eq_some_iff]
  cases ofJson? v with
  | none => exact ⟨nofun, nofun⟩
  | some config' =>
    exact ⟨fun h => congrArg _ (Except.ok.inj h), fun h => congrArg _ (Option.some.inj h)⟩

/-- **Every spelling of a configuration is read**: a text that spells a value is read as a
configuration, with just its fields, if the value is one of the forms of the configuration, and as
no other. If an object of the value repeats a field of the record that it stands for, the text is
refused. -/
theorem parse_of_spelling {text : String} {v : Json}
    (spells : Json.Spells text.toList (Json.tokens v)) :
    (∀ config : RecoveryConfig, parse text = .ok config ↔ config.Form v) ∧
      (Repeats v → ∃ reason, parse text = .error (.deserialization reason)) := by
  refine ⟨fun config => parse_eq_ok_iff_form spells, fun repeats => ?_⟩
  have hnone : ofJson? v = none := by
    rw [Option.eq_none_iff_forall_ne_some]
    exact fun config h => (ofJson?_eq_some_iff.mp h).not_repeats repeats
  rw [parse, Json.read?_of_spells spells, Option.bind_some, hnone]
  exact ⟨_, rfl⟩

/-- Two peers: an array that leaves its rank out, and an object that has another member. -/
def peerValues : List Json :=
  [.array [.str "a", .str "5", .array [.str "7"]],
    .object [
      (some "weight", .object [(some "x", .array [.decimal ['-', '1'], .object []])]),
      (some "bk", .object [(some "rank", .natural 1), (some "x", .str "9")]),
      (some "share", .str "6"), (some "id", .str "b")]]

/-- A configuration whose curve is left out. -/
def mixedValue : Json :=
  .object [(some "peers", .array peerValues), (some "pubkey", .array [.str "1", .str "2"]),
    (some "threshold", .natural 2)]

/-- A text of this value, with an escape in a name. -/
def mixedText : String :=
  "\x7b\"peers\": [[\"a\", \"5\", [\"7\"]],\n" ++
  "  \x7b\"weight\":\x7b\"x\":[-1,\x7b\x7d]\x7d, \"bk\":\x7b\"r\\u0061nk\":1,\"x\":\"9\"\x7d," ++
  " \"share\":\"6\", \"id\":\"b\"\x7d],\n" ++
  " \"pubkey\": [\"1\",\"2\"], \"threshold\": 2\x7d\n"

/-- The configuration that it spells. -/
def mixedConfig : RecoveryConfig :=
  ⟨none, 2, ⟨"1", "2"⟩, [⟨"a", "5", ⟨"7", 0⟩⟩, ⟨"b", "6", ⟨"9", 1⟩⟩]⟩

theorem form_mixedValue : mixedConfig.Form mixedValue := by
  have hfirst : PeerRecord.Form ⟨"a", "5", ⟨"7", 0⟩⟩ peerValues[0] :=
    ⟨_, .array (.item (.leave rfl .nil)), .array (.item (.item (.item .nil)))⟩
  have hposition : PositionRecord.Form ⟨"9", 1⟩
      (.object [(some "rank", .natural 1), (some "x", .str "9")]) :=
    .object (.keep (.keep .nil)) (List.forall_mem_nil _) (.swap _ _ _)
  have hsecond : PeerRecord.Form ⟨"b", "6", ⟨"9", 1⟩⟩ peerValues[1] :=
    ⟨_, hposition, .object (.keep (.keep (.keep .nil)))
      (List.forall_mem_singleton.mpr ⟨_, rfl, by decide⟩) (List.reverse_perm _).symm⟩
  exact ⟨_, _, .array (.item (.item .nil)), .cons hfirst (.cons hsecond .nil),
    .object (.leave rfl (.keep (.keep (.keep .nil)))) (List.forall_mem_nil _)
      (List.reverse_perm _).symm⟩

/-- A position that has its rank twice. -/
def repeatedPosition : Json :=
  .object [(some "rank", .natural 0), (some "x", .str "7"), (some "rank", .natural 0)]

/-- The array of a configuration that has this position. -/
def repeatedValue : Json :=
  .array [.null, .natural 2, .array [.str "1", .str "2"],
    .array [.array [.str "a", .str "5", repeatedPosition]]]

/-- A text of this value, which spells the name of the rank in two ways. -/
def repeatedText : String :=
  "[null, 2, [\"1\",\"2\"], [[\"a\",\"5\",\x7b\"rank\":0,\"x\":\"7\",\"\\u0072ank\":0\x7d]]]"

theorem repeats_repeatedValue : Repeats repeatedValue := by
  have hpeers : Gives fields "peers" (.array [.array [.str "a", .str "5", repeatedPosition]])
      repeatedValue :=
    .item (.tail _ (.tail _ (.tail _ (.head _))))
  have hposition : Gives PeerRecord.fields "bk" repeatedPosition
      (.array [.str "a", .str "5", repeatedPosition]) :=
    .item (.tail _ (.tail _ (.head _)))
  exact .position hpeers (.head _) hposition (.intro (.tail _ (.head _)) (by decide))

theorem parse_mixedText : parse mixedText = .ok mixedConfig ∧
    ∃ reason, parse repeatedText = .error (.deserialization reason) := by
  have hmixed : Json.Spells mixedText.toList (Json.tokens mixedValue) := by decide +kernel
  have hrepeated : Json.Spells repeatedText.toList (Json.tokens repeatedValue) := by
    decide +kernel
  exact ⟨((parse_of_spelling hmixed).1 _).mpr form_mixedValue,
    (parse_of_spelling hrepeated).2 repeats_repeatedValue⟩

end RecoveryConfig

end RankedKeys
