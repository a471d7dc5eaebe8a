import Mathlib.Tactic.SplitIfs
import RankedKeys.Files
import RankedKeys.Proofs.Answers

/-!
# Files give back what was written

A text is what its UTF-8 bytes stand for, and a file holds the bytes that were written to it last. A
path leads to the same place in every folder, so that reading after writing looks where the bytes
are.

## Main definitions

* `Machine.Keeps`: a machine that can write to a path and reads back what it has written there

## Main results

* `Bytes.toText?_ofText`: texts are read back from their bytes
* `Folder.read_of_write`: a folder gives back what was written
* `Desk.keeps`: so does a desk, at a path to an entry that can have a file
-/

namespace RankedKeys

/-! ## Texts -/

theorem toList_eq_toList_data (bytes : ByteArray) : bytes.toList = bytes.data.toList := by
  -- The loop has the bytes up to its index, last first.
  have loop : ∀ (n i : Nat) (r : List UInt8), bytes.size - i = n →
      ByteArray.toList.loop bytes i r = r.reverse ++ bytes.data.toList.drop i := by
    intro n
    induction n with
    | zero =>
      intro i r hn
      rw [ByteArray.toList.loop.eq_def, if_neg (by omega), List.drop_eq_nil_of_le, List.append_nil]
      have : bytes.data.toList.length = bytes.size := by simp
      omega
    | succ n ih =>
      intro i r hn
      have hi : i < bytes.data.toList.length := by
        have : bytes.data.toList.length = bytes.size := by simp
        omega
      have hget : bytes.get! i = bytes.data.toList[i] := by
        rw [ByteArray.get!]
        exact getElem!_pos bytes.data i (by simpa using hi)
      rw [ByteArray.toList.loop.eq_def, if_pos (by omega), ih (i + 1) _ (by omega), hget,
        List.reverse_cons, List.append_assoc, List.drop_eq_getElem_cons hi]
      rfl
  exact (loop _ 0 [] rfl).trans (List.drop_zero ..)

/-- **A text** is read back from its bytes. -/
theorem Bytes.toText?_ofText (s : String) : toText? (ofText s) = some s := by
  have harray : (⟨(ofText s).toArray⟩ : ByteArray) = s.toUTF8 := by
    rw [ofText, toList_eq_toList_data, Array.toArray_toList]
  rw [toText?, harray, String.toUTF8_eq_toByteArray, String.fromUTF8?]
  exact dif_pos s.isValidUTF8

/-! ## Folders -/

namespace Folder

variable {folder : Folder} {path : String} {place : Place}

/-- Where names lead, they lead in every folder. -/
theorem follow_eq_ok {directory : Directory} {names : List String}
    (h : folder.follow directory names = .ok place) (folder' : Folder) :
    folder'.follow directory names = .ok place := by
  induction names generalizing directory with
  | nil => exact h
  | cons name names ih =>
    rw [follow] at h ⊢
    split_ifs at h ⊢
    case pos | pos => exact ih h
    case pos | pos => exact h

/-- **Where a path leads**, it leads in every folder. -/
theorem place_eq_ok (h : folder.place path = .ok place) (folder' : Folder) :
    folder'.place path = .ok place := by
  unfold Folder.place at h ⊢
  split_ifs at h ⊢
  split at h <;> exact follow_eq_ok h folder'

/-- An entry with a name that is short enough can be written. -/
theorem write_eq_ok {directory : Directory} {name : String}
    (place : folder.place path = .ok (.entry directory name))
    (short : name.utf8ByteSize ≤ maxNameBytes) (bytes : Bytes) :
    folder.write path bytes = .ok ⟨(directory.pathOf name, bytes) ::
      folder.files.filter (·.1 ≠ directory.pathOf name)⟩ :=
  bind_eq_ok_iff.mpr ⟨_, place, guard_eq_ok_iff.mpr ⟨Nat.not_lt.mpr short, rfl⟩⟩

/-- **A folder** gives back what was written to it. -/
theorem read_of_write {folder' : Folder} {bytes : Bytes}
    (h : folder.write path bytes = .ok folder') : folder'.read path = .ok bytes := by
  obtain ⟨place, hplace, h⟩ := bind_eq_ok_iff.mp h
  cases place with
  | directory => cases h
  | slashed directory name => cases h
  | entry directory name =>
    obtain ⟨-, h⟩ := guard_eq_ok_iff.mp h
    obtain rfl := pure_eq_ok_iff.mp h
    refine bind_eq_ok_iff.mpr ⟨_, place_eq_ok hplace _, ?_⟩
    simp only [List.lookup_cons_self]
    rfl

end Folder

/-! ## Machines -/

/-- **A machine that keeps a file**: what is written to the path can be written, and it is what the
path is read as afterwards. -/
def Machine.Keeps (m : Type → Type) [Monad m] [Machine m] (path : String) : Prop :=
  ∀ bytes : Bytes,
    (do let written ← Machine.writeFile (m := m) path bytes
        let content ← Machine.readFile path
        pure (written, content)) =
      (do let _ ← Machine.writeFile path bytes
          pure (.ok (), .ok bytes))

/-- **A desk** keeps the files that are entries of its folder or of a directory around it. -/
theorem Desk.keeps {path name : String} {directory : Folder.Directory}
    (place : Folder.place ⟨[]⟩ path = .ok (.entry directory name))
    (short : name.utf8ByteSize ≤ Folder.maxNameBytes) : Machine.Keeps (StateM Desk) path := by
  intro bytes
  funext desk
  have hwrite := Folder.write_eq_ok (Folder.place_eq_ok place desk.folder) short bytes
  have hread := Folder.read_of_write hwrite
  simp only [bind, StateT.bind, Machine.writeFile, Machine.readFile, hwrite, hread]

end RankedKeys
