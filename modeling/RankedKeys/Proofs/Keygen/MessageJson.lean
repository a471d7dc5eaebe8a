import RankedKeys.Keygen.MessageJson
import RankedKeys.Proofs.Json.Grammar
import RankedKeys.Proofs.Json.Record
import RankedKeys.Proofs.Json.Writer

/-!
# Messages of key generation are read back

Every field of a message is read from one JSON value alone, the one that it is written as. What is
left open is how the fields are put together: as the array of their values, or as an object that has
them in any order among other members. A text is accepted as a message exactly if it spells one of
these values, and all of them are the same message again when it has been written.

## Main definitions

* `KeygenMessage.Encoding m v`: a value that stands for a message

## Main results

* `Bytes.ofJson?_eq_some_iff`, `SessionId.ofJson?_eq_some_iff`: byte strings and session names are
  read from one value each
* `KeygenMessage.ofJson?_eq_some_iff`: the values that stand for a message are those it is read from
* `KeygenMessage.encoding_toJson`, `KeygenMessage.written_toJson`: the value that a message is
  written as is one of them, and it can be written
* `KeygenMessage.parse_of_text`: messages are read back from their text, and from every other text
  that is accepted
-/

namespace RankedKeys

open Json (HasFields Written)

/-! ## Fields -/

theorem Bytes.ofJson?_eq_some_iff {v : Json} {bytes : Bytes} :
    ofJson? v = some bytes ↔ v = bytes.toJson := by
  rw [ofJson?, Json.listOf?_eq_some_iff Json.byte?_eq_some_iff, toJson, Json.naturals,
    List.map_map]
  rfl

theorem Bytes.written_toJson (bytes : Bytes) : Written bytes.toJson := by
  refine .array ?_
  rw [List.map_map]
  exact List.forall_mem_map.mpr fun b _ => .natural b.toNat

theorem SessionId.ofBytes?_eq_some_iff {bytes : Bytes} {sessionId : SessionId} :
    ofBytes? bytes = some sessionId ↔ bytes = sessionId.bytes := by
  simp only [ofBytes?, Option.dite_none_right_eq_some, Option.some_inj]
  constructor
  · rintro ⟨hlength, rfl⟩
    rfl
  · rintro rfl
    exact ⟨sessionId.length_eq, rfl⟩

theorem SessionId.ofJson?_eq_some_iff {v : Json} {sessionId : SessionId} :
    ofJson? v = some sessionId ↔ v = sessionId.bytes.toJson := by
  simp only [ofJson?, Option.bind_eq_some_iff, ofBytes?_eq_some_iff, Bytes.ofJson?_eq_some_iff]
  exact exists_eq_right

/-! ## Messages of either round -/

/-- The values of the fields of a commitment message, in declared order. -/
def CommitMessage.fieldValues (m : CommitMessage) : List Json :=
  [.str m.sender, m.sessionId.bytes.toJson, m.coordinate.toJson, .natural m.rank.toNat,
    .array (m.commitments.map Bytes.toJson)]

/-- A value that stands for a commitment message. -/
def CommitMessage.Encoding (m : CommitMessage) (v : Json) : Prop :=
  HasFields ["from", "session_id", "bk_x", "bk_rank", "commitments"] m.fieldValues v

theorem CommitMessage.ofJson?_eq_some_iff {v : Json} {m : CommitMessage} :
    ofJson? v = some m ↔ m.Encoding v := by
  rw [ofJson?]
  refine Json.record_eq_some_iff fun values m => ?_
  constructor
  · intro h
    split at h
    · simp only [Option.bind_eq_bind, Option.bind_eq_some_iff, Option.pure_def, Option.some_inj,
        Json.text?_eq_some_iff, SessionId.ofJson?_eq_some_iff, Bytes.ofJson?_eq_some_iff,
        Json.word32?_eq_some_iff, Json.listOf?_eq_some_iff Bytes.ofJson?_eq_some_iff] at h
      obtain ⟨sender, rfl, sessionId, rfl, coordinate, rfl, rank, rfl, commitments, rfl, rfl⟩ := h
      rfl
    · cases h
  · rintro rfl
    simp only [fieldValues, Json.text?_eq_some_iff.mpr rfl,
      SessionId.ofJson?_eq_some_iff.mpr rfl, Bytes.ofJson?_eq_some_iff.mpr rfl,
      Json.word32?_eq_some_iff.mpr rfl,
      (Json.listOf?_eq_some_iff Bytes.ofJson?_eq_some_iff).mpr rfl]
    rfl

theorem CommitMessage.encoding_toJson (m : CommitMessage) : m.Encoding m.toJson :=
  Json.hasFields_obj (by decide) rfl

theorem CommitMessage.written_toJson (m : CommitMessage) : Written m.toJson := by
  refine .obj ?_
  simp only [List.forall_mem_cons]
  refine ⟨.str _, m.sessionId.bytes.written_toJson, m.coordinate.written_toJson, .natural _,
    .array ?_, fun _ hm => absurd hm List.not_mem_nil⟩
  exact List.forall_mem_map.mpr fun commitment _ => commitment.written_toJson

/-- The values of the fields of a share message, in declared order. -/
def ShareMessage.fieldValues (m : ShareMessage) : List Json :=
  [.str m.sender, .str m.receiver, m.sessionId.bytes.toJson, m.share.toJson]

/-- A value that stands for a share message. -/
def ShareMessage.Encoding (m : ShareMessage) (v : Json) : Prop :=
  HasFields ["from", "to", "session_id", "share"] m.fieldValues v

theorem ShareMessage.ofJson?_eq_some_iff {v : Json} {m : ShareMessage} :
    ofJson? v = some m ↔ m.Encoding v := by
  rw [ofJson?]
  refine Json.record_eq_some_iff fun values m => ?_
  constructor
  · intro h
    split at h
    · simp only [Option.bind_eq_bind, Option.bind_eq_some_iff, Option.pure_def, Option.some_inj,
        Json.text?_eq_some_iff, SessionId.ofJson?_eq_some_iff, Bytes.ofJson?_eq_some_iff] at h
      obtain ⟨sender, rfl, receiver, rfl, sessionId, rfl, share, rfl, rfl⟩ := h
      rfl
    · cases h
  · rintro rfl
    simp only [fieldValues, Json.text?_eq_some_iff.mpr rfl,
      SessionId.ofJson?_eq_some_iff.mpr rfl, Bytes.ofJson?_eq_some_iff.mpr rfl]
    rfl

theorem ShareMessage.encoding_toJson (m : ShareMessage) : m.Encoding m.toJson :=
  Json.hasFields_obj (by decide) rfl

theorem ShareMessage.written_toJson (m : ShareMessage) : Written m.toJson := by
  refine .obj ?_
  simp only [List.forall_mem_cons]
  exact ⟨.str _, .str _, m.sessionId.bytes.written_toJson, m.share.written_toJson,
    fun _ hm => absurd hm List.not_mem_nil⟩

/-! ## Messages -/

namespace KeygenMessage

/-- **A value that stands for a message**: an object with one member, which is named after the round
and has the fields of the message. -/
inductive Encoding : KeygenMessage → Json → Prop
  | commit {m : CommitMessage} {content : Json} (fields : m.Encoding content) :
    Encoding (.commit m) (.obj [("Commit", content)])
  | share {m : ShareMessage} {content : Json} (fields : m.Encoding content) :
    Encoding (.share m) (.obj [("Share", content)])

/-- **The values that stand for a message** are those that it is read from. -/
theorem ofJson?_eq_some_iff {v : Json} {m : KeygenMessage} :
    ofJson? v = some m ↔ m.Encoding v := by
  constructor
  · intro h
    rw [ofJson?, Option.bind_eq_bind, Option.bind_eq_some_iff] at h
    obtain ⟨choice, hcase, h⟩ := h
    split at h
    · obtain ⟨message, hmessage, rfl⟩ := Option.map_eq_some_iff.mp h
      rw [Json.case?_eq_some_iff.mp hcase]
      exact .commit (CommitMessage.ofJson?_eq_some_iff.mp hmessage)
    · obtain ⟨message, hmessage, rfl⟩ := Option.map_eq_some_iff.mp h
      rw [Json.case?_eq_some_iff.mp hcase]
      exact .share (ShareMessage.ofJson?_eq_some_iff.mp hmessage)
    · cases h
  · rintro (⟨fields⟩ | ⟨fields⟩)
    · exact Option.map_eq_some_iff.mpr ⟨_, CommitMessage.ofJson?_eq_some_iff.mpr fields, rfl⟩
    · exact Option.map_eq_some_iff.mpr ⟨_, ShareMessage.ofJson?_eq_some_iff.mpr fields, rfl⟩

theorem encoding_toJson (m : KeygenMessage) : m.Encoding m.toJson := by
  cases m with
  | commit m => exact .commit m.encoding_toJson
  | share m => exact .share m.encoding_toJson

theorem written_toJson (m : KeygenMessage) : Written m.toJson := by
  have hone : ∀ {name : String} {content : Json}, Written content →
      Written (.obj [(name, content)]) := by
    intro name content hcontent
    exact .obj (List.forall_mem_singleton.mpr hcontent)
  cases m with
  | commit m => exact hone m.written_toJson
  | share m => exact hone m.written_toJson

/-- **A text is accepted** as a message if it spells a value that stands for it. -/
theorem parse_eq_ok_iff {text : String} {m : KeygenMessage} :
    parse text = .ok m ↔ ∃ v, Json.Spells text.toList (Json.tokens v) ∧ m.Encoding v := by
  have hread : (Json.read? text).bind ofJson? = some m ↔
      ∃ v, Json.Spells text.toList (Json.tokens v) ∧ m.Encoding v := by
    simp only [Option.bind_eq_some_iff, ofJson?_eq_some_iff, Json.read?_eq_some_iff]
  rw [parse, ← hread]
  cases (Json.read? text).bind ofJson? with
  | none => exact ⟨nofun, nofun⟩
  | some message =>
    exact ⟨fun h => congrArg _ (Except.ok.inj h), fun h => congrArg _ (Option.some.inj h)⟩

theorem parse_print (m : KeygenMessage) : parse m.print = .ok m := by
  have hspells := Json.read?_eq_some_iff.mp (Json.read?_compact m.written_toJson)
  exact parse_eq_ok_iff.mpr ⟨_, hspells, m.encoding_toJson⟩

/-- **Messages are read back from their text**: whatever its names, its bytes and its commitments
are, the compact text of a message is accepted as the same message, with the same sender and tag. A
text is accepted as a message exactly if it spells a value that stands for it, be it an array or an
object, with its members in any order; and whatever the text is, writing what has been accepted and
reading that gives the answer of the text itself. -/
theorem parse_of_text :
    (∀ m : KeygenMessage, ∃ again, parse m.print = .ok again ∧ again = m ∧
      Tagged.sender again = Tagged.sender m ∧ Tagged.tag again = Tagged.tag m) ∧
    (∀ (text : String) (m : KeygenMessage), parse text = .ok m ↔
      ∃ v, Json.Spells text.toList (Json.tokens v) ∧ m.Encoding v) ∧
    ∀ text : String, (do let m ← parse text; parse m.print) = parse text := by
  refine ⟨fun m => ⟨m, m.parse_print, rfl, rfl, rfl⟩, fun text m => parse_eq_ok_iff,
    fun text => ?_⟩
  cases h : parse text with
  | error e => rfl
  | ok m => exact m.parse_print

end KeygenMessage

end RankedKeys
