/-
Duplicated binary data.

An id that was given out has a file of the manager of its mode, and no two files have the same file
id.  So a copy by the current manager is made of the data of an id exactly if the manager of its
mode is the current one.

* **`survives_iff`** — binary data survive duplication exactly if all files are those of the current
  manager, or there is none and they cannot be deleted.
* **`getAsBuffer_of_stored`** — what was stored is read again in every run.
-/
import N8n.BinaryDataService

namespace N8n.BinaryDataService

variable {s t u v : BinaryDataService}

theorem splitId_join {mode fileId : String} (hmode : ':' ∉ mode.toList)
    (hfile : ':' ∉ fileId.toList) : splitId (mode ++ ":" ++ fileId) = (mode, some fileId) := by
  have hcolon : (mode ++ ":" ++ fileId).toList = mode.toList ++ ':' :: fileId.toList := by
    rw [String.toList_append, String.toList_append, List.append_assoc]
    rfl
  rw [splitId, hcolon, List.splitOn_append_cons_self, List.splitOn_eq_singleton hmode,
    List.splitOn_eq_singleton hfile]
  simp only [List.singleton_append, List.map_cons, String.ofList_toList]

theorem splitId_createBinaryDataId {fileId : String} (h : ':' ∉ fileId.toList) :
    splitId (s.createBinaryDataId fileId) = (s.mode.toString, some fileId) := by
  refine splitId_join ?_ h
  cases s.mode <;> decide

theorem locate_eq_ok_iff {id : String} {file : ℕ × String} : s.locate id = .ok file ↔
    s.managers.get? (splitId id).1 = some file.1 ∧ (splitId id).2 = some file.2 := by
  obtain ⟨M, f⟩ := file
  rw [locate]
  rcases s.managers.get? (splitId id).1 with _ | M' <;> rcases (splitId id).2 with _ | f' <;> simp

variable {binaryData : BinaryData}

theorem getAsBuffer_of_none (h : binaryData.fileId = none) :
    s.getAsBuffer binaryData = .ok (Base64.decode binaryData.data) := by
  rw [getAsBuffer, h]

theorem getAsBuffer_eq_ok_iff {id : String} {bytes : List UInt8}
    (h : binaryData.fileId = some id) : s.getAsBuffer binaryData = .ok bytes ↔
      ∃ file, s.locate id = .ok file ∧ s.files.get? file = some bytes := by
  rw [getAsBuffer, h]
  rcases hlocate : s.locate id with e | file
  · simp [hlocate, bind, Except.bind]
  · rcases hget : s.files.get? file with _ | bytes' <;>
      simp [hlocate, hget, bind, Except.bind]

/-- The ids that were given out have their files, and a file id has one manager. -/
structure Inv (s : BinaryDataService) : Prop where
  file : ∀ e ∈ s.stored, ∃ file, s.locate e.1 = .ok file ∧ s.files.get? file = some e.2
  unique : ∀ k ∈ s.files.keys, ∀ k' ∈ s.files.keys, k.2 = k'.2 → k = k'

/-- Files and ids are added, with the same managers. -/
structure Extends (s t : BinaryDataService) : Prop where
  mode : t.mode = s.mode
  managers : t.managers = s.managers
  deletesByFileId : t.deletesByFileId = s.deletesByFileId
  files : ∀ k bytes, s.files.get? k = some bytes → t.files.get? k = some bytes
  stored : ∀ e ∈ s.stored, e ∈ t.stored

namespace Extends

theorem refl : s.Extends s := ⟨rfl, rfl, rfl, fun _ _ h => h, fun _ h => h⟩

theorem trans (h : s.Extends t) (h' : t.Extends u) : s.Extends u where
  mode := h'.mode.trans h.mode
  managers := h'.managers.trans h.managers
  deletesByFileId := h'.deletesByFileId.trans h.deletesByFileId
  files k bytes hget := h'.files k bytes (h.files k bytes hget)
  stored e he := h'.stored e (h.stored e he)

theorem manager (h : s.Extends t) : t.manager = s.manager := by
  rw [BinaryDataService.manager, BinaryDataService.manager, h.mode, h.managers]

theorem createBinaryDataId (h : s.Extends t) (fileId : String) :
    t.createBinaryDataId fileId = s.createBinaryDataId fileId := by
  rw [BinaryDataService.createBinaryDataId, BinaryDataService.createBinaryDataId, h.mode]

theorem locate (h : s.Extends t) (id : String) : t.locate id = s.locate id := by
  rw [BinaryDataService.locate, BinaryDataService.locate, h.managers]

theorem holds (h : s.Extends t) {bytes : List UInt8}
    (hholds : s.Holds binaryData bytes) : t.Holds binaryData bytes := by
  rw [Holds] at hholds ⊢
  split
  · rename_i hnone
    rw [hnone] at hholds
    exact hholds
  · rename_i id hsome
    rw [hsome] at hholds
    exact h.stored _ hholds

end Extends

variable {fileId : String}

theorem Fresh.get?_eq_none (h : s.Fresh fileId) (M : ℕ) :
    s.files.get? (M, fileId) = none :=
  Dict.get?_eq_none_iff.mpr fun hmem => h.2 _ hmem rfl

variable {newFileId : String}

theorem Fresh.addFile (h : s.Fresh fileId) (hne : fileId ≠ newFileId)
    (M : ℕ) (bytes : List UInt8) : (s.addFile M newFileId bytes).Fresh fileId := by
  refine ⟨h.1, fun k hk => ?_⟩
  rcases Dict.mem_keys_set.mp hk with rfl | hk
  · exact hne.symm
  · exact h.2 k hk

theorem extends_addFile (h : s.Fresh fileId) (M : ℕ) (bytes : List UInt8) :
    s.Extends (s.addFile M fileId bytes) where
  mode := rfl
  managers := rfl
  deletesByFileId := rfl
  files k bytes' hget := by
    have hne : k ≠ (M, fileId) := fun hk => by
      rw [hk, h.get?_eq_none] at hget
      cases hget
    exact (Dict.get?_set_of_ne s.files hne bytes).trans hget
  stored e he := List.mem_append_left _ he

variable {M : ℕ}

theorem Inv.addFile (hinv : s.Inv) (h : s.Fresh fileId)
    (hM : s.manager = some M) (bytes : List UInt8) : (s.addFile M fileId bytes).Inv where
  file e he := by
    have hextends := extends_addFile h M bytes
    rcases List.mem_append.mp he with he | he
    · obtain ⟨file, hlocate, hget⟩ := hinv.file e he
      exact ⟨file, (hextends.locate _).trans hlocate, hextends.files _ _ hget⟩
    · rw [List.mem_singleton.mp he]
      refine ⟨(M, fileId), ?_, Dict.get?_set_self _ _ _⟩
      rw [hextends.locate, locate_eq_ok_iff, splitId_createBinaryDataId h.1]
      exact ⟨hM, rfl⟩
  unique k hk k' hk' heq := by
    rcases Dict.mem_keys_set.mp hk with rfl | hk <;> rcases Dict.mem_keys_set.mp hk' with rfl | hk'
    · rfl
    · exact absurd heq.symm (h.2 k' hk')
    · exact absurd heq (h.2 k hk)
    · exact hinv.unique k hk k' hk' heq

/-- The current manager is the one of the mode of the id. -/
def IsCurrent (s : BinaryDataService) (M : ℕ) (id : String) : Prop :=
  s.managers.get? (splitId id).1 = some M

/-- What a copy of stored data comes to: an id with the same bytes, if the manager is the one of the
mode of the id. -/
def CopyOf (s t : BinaryDataService) (M : ℕ) (objects : List BinaryData)
    (property : BinaryProperty × String) (copy : Except BinaryDataError (Option String)) : Prop :=
  ∀ binaryData bytes, objects[property.1.ref]? = some binaryData → s.Holds binaryData bytes →
    match binaryData.fileId with
    | none => copy = .ok none
    | some id =>
      s.IsCurrent M id ∧ copy = .ok (some (s.createBinaryDataId property.2)) ∧
          (s.createBinaryDataId property.2, bytes) ∈ t.stored ∨
        ¬ s.IsCurrent M id ∧ copy = .error .fileNotFound

variable {bytes : List UInt8}

theorem Inv.get?_of_stored {id : String} (hinv : s.Inv)
    (hmem : (id, bytes) ∈ s.stored) :
    ((splitId id).2.bind fun fileId => s.files.get? (M, fileId)) = some bytes ∧ s.IsCurrent M id ∨
      ((splitId id).2.bind fun fileId => s.files.get? (M, fileId)) = none ∧ ¬ s.IsCurrent M id := by
  obtain ⟨⟨M', f⟩, hlocate, hget⟩ := hinv.file _ hmem
  obtain ⟨hmanager, hfile⟩ := locate_eq_ok_iff.mp hlocate
  rw [hfile, Option.bind_some]
  by_cases hM : M' = M
  · rw [← hM]
    exact .inl ⟨hget, hmanager⟩
  · refine .inr ⟨Dict.get?_eq_none_iff.mpr fun hmem => hM ?_, fun hcurrent => hM ?_⟩
    · exact congrArg Prod.fst (hinv.unique _ (Dict.mem_keys_iff.mpr ⟨_, hget⟩) _ hmem rfl)
    · exact Option.some_inj.mp (hmanager.symm.trans hcurrent)

theorem copyByFileId_spec (objects : List BinaryData) (property : BinaryProperty) (hinv : s.Inv) (hM : s.manager = some M) (hfresh : s.Fresh newFileId) :
    let copy := s.copyByFileId M objects[property.ref]? newFileId
    s.Extends copy.2 ∧ copy.2.Inv ∧
      (∀ fileId, s.Fresh fileId → fileId ≠ newFileId → copy.2.Fresh fileId) ∧
      s.CopyOf copy.2 M objects (property, newFileId) copy.1 := by
  rw [copyByFileId]
  rcases hid : objects[property.ref]?.bind BinaryData.fileId with _ | id
  · refine ⟨.refl, hinv, fun _ h _ => h, fun binaryData bytes hget _ => ?_⟩
    rw [hget, Option.bind_some] at hid
    rw [hid]
  have hCopyOf : ∀ (copy : Except BinaryDataError (Option String)) (t : BinaryDataService),
      (∀ bytes, (id, bytes) ∈ s.stored →
        s.IsCurrent M id ∧ copy = .ok (some (s.createBinaryDataId newFileId)) ∧
            (s.createBinaryDataId newFileId, bytes) ∈ t.stored ∨
          ¬ s.IsCurrent M id ∧ copy = .error .fileNotFound) →
      s.CopyOf t M objects (property, newFileId) copy := by
    intro copy t h binaryData bytes hget hholds
    rw [hget, Option.bind_some] at hid
    rw [Holds, hid] at hholds
    rw [hid]
    exact h bytes hholds
  rcases hsource : (splitId id).2.bind fun fileId => s.files.get? (M, fileId) with _ | source
  · simp only [hsource]
    refine ⟨.refl, hinv, fun _ h _ => h, hCopyOf _ _ fun bytes hmem => ?_⟩
    rcases hinv.get?_of_stored (M := M) hmem with ⟨hget, _⟩ | ⟨_, hcurrent⟩
    · rw [hsource] at hget
      cases hget
    · exact .inr ⟨hcurrent, rfl⟩
  · simp only [hsource]
    refine ⟨extends_addFile hfresh M source, hinv.addFile hfresh hM source,
      fun _ h hne => h.addFile hne M source, hCopyOf _ _ fun bytes hmem => ?_⟩
    rcases hinv.get?_of_stored (M := M) hmem with ⟨hget, hcurrent⟩ | ⟨hget, _⟩
    · rw [hsource] at hget
      cases hget
      exact .inl ⟨hcurrent, rfl, List.mem_append_right _ List.mem_cons_self⟩
    · rw [hsource] at hget
      cases hget

variable {objects : List BinaryData}

theorem CopyOf.of_extends
    {property : BinaryProperty × String} {copy : Except BinaryDataError (Option String)}
    (hst : s.Extends t) (htu : ∀ e ∈ u.stored, e ∈ v.stored)
    (h : t.CopyOf u M objects property copy) : s.CopyOf v M objects property copy := by
  intro binaryData bytes hget hholds
  have hcopy := h binaryData bytes hget (hst.holds hholds)
  rcases hid : binaryData.fileId with _ | id
  · rw [hid] at hcopy
    exact hcopy
  · rw [hid] at hcopy
    simp only [IsCurrent, hst.managers, hst.createBinaryDataId] at hcopy ⊢
    rcases hcopy with ⟨hcurrent, hok, hmem⟩ | hfailed
    · exact .inl ⟨hcurrent, hok, htu _ hmem⟩
    · exact .inr hfailed

theorem copyAll_spec :
    ∀ {properties : List (BinaryProperty × String)} {s : BinaryDataService}, s.Inv →
      s.manager = some M → (properties.map Prod.snd).Nodup →
      (∀ property ∈ properties, s.Fresh property.2) →
      let copies := copyAll M objects s properties
      s.Extends copies.2 ∧ copies.2.Inv ∧ List.Forall₂ (fun property copy =>
        copy.1 = property.1 ∧ s.CopyOf copies.2 M objects property copy.2) properties copies.1 := by
  intro properties
  induction properties with
  | nil => exact fun hinv _ _ _ => ⟨.refl, hinv, .nil⟩
  | cons property properties ih =>
    intro s hinv hM hnodup hfresh
    obtain ⟨property, newFileId⟩ := property
    obtain ⟨hnotMem, hnodup⟩ := List.nodup_cons.mp hnodup
    obtain ⟨hfirst, hfresh⟩ := List.forall_mem_cons.mp hfresh
    obtain ⟨hextends, hinv', hfresh', hcopy⟩ :=
      copyByFileId_spec objects property hinv hM hfirst
    have hne : ∀ q ∈ properties, q.2 ≠ newFileId := fun q hq heq =>
      hnotMem (List.mem_map.mpr ⟨q, hq, heq⟩)
    obtain ⟨hextends', hinv'', hcopies⟩ := ih hinv' (hextends.manager.trans hM) hnodup
      fun q hq => hfresh' _ (hfresh q hq) (hne q hq)
    refine ⟨hextends.trans hextends', hinv'', .cons ⟨rfl, ?_⟩ ?_⟩
    · exact CopyOf.of_extends .refl hextends'.stored hcopy
    · exact hcopies.imp fun q copy ⟨hfst, hcopy⟩ =>
        ⟨hfst, CopyOf.of_extends hextends (fun _ h => h) hcopy⟩

theorem getElem?_foldl_writeId (ref : ℕ) : ∀ (writes : List (ℕ × Option String))
    (objects : List BinaryData),
    (∀ write ∈ writes, write.1 ≠ ref) ∧ (writes.foldl writeId objects)[ref]? = objects[ref]? ∨
      ∃ write ∈ writes, write.1 = ref ∧ (writes.foldl writeId objects)[ref]?
        = objects[ref]?.map fun binaryData => { binaryData with id := write.2 } := by
  intro writes
  induction writes with
  | nil => exact fun objects => .inl ⟨List.forall_mem_nil _, rfl⟩
  | cons write writes ih =>
    intro objects
    have hwrite : (writeId objects write)[ref]? = if write.1 = ref
        then objects[ref]?.map fun binaryData => { binaryData with id := write.2 }
        else objects[ref]? := by
      rw [writeId, List.getElem?_modify]
      split <;> simp
    rw [List.foldl_cons]
    rcases ih (writeId objects write) with ⟨hnone, hget⟩ | ⟨last, hmem, href, hget⟩
    · by_cases href : write.1 = ref
      · refine .inr ⟨write, List.mem_cons_self, href, ?_⟩
        rw [hget, hwrite, if_pos href]
      · refine .inl ⟨List.forall_mem_cons.mpr ⟨href, hnone⟩, ?_⟩
        rw [hget, hwrite, if_neg href]
    · refine .inr ⟨last, List.mem_cons_of_mem _ hmem, href, ?_⟩
      rw [hget, hwrite]
      split
      · rw [Option.map_map]
        rfl
      · rfl

variable {copies : List (BinaryProperty × Except BinaryDataError (Option String))}

theorem mem_writes_iff
    {order : List ℕ} (hok : ∀ copy ∈ copies, copy.2.toBool = true)
    (horder : ∀ copy ∈ copies, copy.1.item ∈ order) {write : ℕ × Option String} :
    write ∈ writes copies order ↔
      ∃ copy ∈ copies, write = (copy.1.ref, copy.2.toOption.join) := by
  have hall : ∀ item, (copies.filter (·.1.item = item)).all (·.2.toBool) = true := fun item =>
    List.all_eq_true.mpr fun copy hcopy => hok copy (List.mem_of_mem_filter hcopy)
  simp only [writes, hall, if_true, List.mem_flatMap, List.mem_map, List.mem_filter,
    decide_eq_true_eq]
  constructor
  · rintro ⟨item, _, copy, ⟨hcopy, _⟩, rfl⟩
    exact ⟨copy, hcopy, rfl⟩
  · rintro ⟨copy, hcopy, rfl⟩
    exact ⟨copy.1.item, horder copy hcopy, copy, ⟨hcopy, rfl⟩, rfl⟩

def Deletes (s : BinaryDataService) (id : String) (file : ℕ × String) : Prop :=
  s.managers.get? (splitId id).1 = some file.1 ∧ s.deletesByFileId file.1 = true ∧
    (splitId id).2.filter (· ≠ "") = some file.2

theorem mem_fileIdsByMode {mode : String} {ids : List String} :
    fileId ∈ ((fileIdsByMode ids).get? mode).getD [] ↔
      ∃ id ∈ ids, (splitId id).1 = mode ∧ (splitId id).2.filter (· ≠ "") = some fileId := by
  have hloop : ∀ (ids : List String) (d : Dict String (List String)),
      fileId ∈ ((ids.foldl addFileId d).get? mode).getD [] ↔
        fileId ∈ (d.get? mode).getD [] ∨
          ∃ id ∈ ids, (splitId id).1 = mode ∧ (splitId id).2.filter (· ≠ "") = some fileId := by
    intro ids
    induction ids with
    | nil => exact fun d => by simp
    | cons id ids ih =>
      intro d
      rw [List.foldl_cons, ih, List.exists_mem_cons_iff, ← or_assoc]
      refine or_congr_left ?_
      rw [addFileId]
      rcases hfile : (splitId id).2.filter (· ≠ "") with _ | f
      · simp
      · by_cases hmode : (splitId id).1 = mode
        · simp [hmode, eq_comm]
        · simp [Dict.get?_set, hmode, Ne.symm hmode]
  rw [fileIdsByMode, hloop ids .empty]
  exact or_iff_right List.not_mem_nil

theorem get?_foldl_deleteManyByFileId (file : ℕ × String) :
    ∀ (entries : List (String × List String)) (s : BinaryDataService),
      let t := entries.foldl deleteManyByFileId s
      t.managers = s.managers ∧ t.deletesByFileId = s.deletesByFileId ∧
        t.files.get? file = if ∃ e ∈ entries, s.managers.get? e.1 = some file.1 ∧
            s.deletesByFileId file.1 = true ∧ file.2 ∈ e.2
          then none else s.files.get? file := by
  intro entries
  induction entries with
  | nil => exact fun s => ⟨rfl, rfl, (if_neg (by simp)).symm⟩
  | cons e entries ih =>
    intro s
    have hfirst : (s.deleteManyByFileId e).managers = s.managers ∧
        (s.deleteManyByFileId e).deletesByFileId = s.deletesByFileId ∧
        (s.deleteManyByFileId e).files.get? file = if s.managers.get? e.1 = some file.1 ∧
            s.deletesByFileId file.1 = true ∧ file.2 ∈ e.2 then none else s.files.get? file := by
      rw [deleteManyByFileId]
      rcases hM : s.managers.get? e.1 with _ | M
      · exact ⟨rfl, rfl, (if_neg fun h => by cases h.1).symm⟩
      dsimp only
      by_cases hdeletes : s.deletesByFileId M = true
      · simp only [hdeletes, if_true]
        refine ⟨trivial, trivial, ?_⟩
        have hiff : file ∈ (e.2.map fun f => (M, f)) ↔ some M = some file.1 ∧
            s.deletesByFileId file.1 = true ∧ file.2 ∈ e.2 := by
          obtain ⟨M', f⟩ := file
          simp only [List.mem_map, Prod.mk.injEq, Option.some.injEq]
          constructor
          · rintro ⟨f', hf', rfl, rfl⟩
            exact ⟨rfl, hdeletes, hf'⟩
          · rintro ⟨rfl, _, hf⟩
            exact ⟨f, hf, rfl, rfl⟩
        rw [Dict.get?_eraseAll]
        by_cases hmem : file ∈ (e.2.map fun f => (M, f))
        · rw [if_pos hmem, if_pos (hiff.mp hmem)]
        · rw [if_neg hmem, if_neg fun h => hmem (hiff.mpr h)]
      · rw [if_neg hdeletes]
        refine ⟨rfl, rfl, (if_neg fun h => ?_).symm⟩
        rw [Option.some_inj.mp h.1] at hdeletes
        exact hdeletes h.2.1
    obtain ⟨hmanagers, hdeletes, hget⟩ := hfirst
    obtain ⟨hmanagers', hdeletes', hget'⟩ := ih (s.deleteManyByFileId e)
    rw [List.foldl_cons]
    refine ⟨hmanagers'.trans hmanagers, hdeletes'.trans hdeletes, ?_⟩
    rw [hget', hmanagers, hdeletes, hget]
    simp only [List.exists_mem_cons_iff]
    by_cases hrest : ∃ e ∈ entries, s.managers.get? e.1 = some file.1 ∧
        s.deletesByFileId file.1 = true ∧ file.2 ∈ e.2
    · rw [if_pos hrest, if_pos (.inr hrest)]
    · rw [if_neg hrest]
      exact if_congr (or_iff_left hrest).symm rfl rfl

theorem get?_deleteMany (s : BinaryDataService) (ids : List String) (file : ℕ × String) :
    (s.deleteManyByBinaryDataId ids).managers = s.managers ∧
      ((∃ id ∈ ids, s.Deletes id file) →
        (s.deleteManyByBinaryDataId ids).files.get? file = none) ∧
      ((∀ id ∈ ids, ¬ s.Deletes id file) →
        (s.deleteManyByBinaryDataId ids).files.get? file = s.files.get? file) := by
  have hiff : (∃ e ∈ (fileIdsByMode ids).entries, s.managers.get? e.1 = some file.1 ∧
      s.deletesByFileId file.1 = true ∧ file.2 ∈ e.2) ↔ ∃ id ∈ ids, s.Deletes id file := by
    constructor
    · rintro ⟨⟨mode, fileIds⟩, hmem, hM, hdeletes, hfile⟩
      have hget := Dict.mem_entries_iff.mp hmem
      obtain ⟨id, hid, rfl, hfileId⟩ := mem_fileIdsByMode.mp (by rw [hget]; exact hfile)
      exact ⟨id, hid, hM, hdeletes, hfileId⟩
    · rintro ⟨id, hid, hM, hdeletes, hfileId⟩
      have hmem := mem_fileIdsByMode.mpr ⟨id, hid, rfl, hfileId⟩
      rcases hget : (fileIdsByMode ids).get? (splitId id).1 with _ | fileIds
      · rw [hget] at hmem
        cases hmem
      · rw [hget] at hmem
        exact ⟨_, Dict.mem_entries_iff.mpr hget, hM, hdeletes, hmem⟩
  obtain ⟨hmanagers, _, hget⟩ := get?_foldl_deleteManyByFileId file (fileIdsByMode ids).entries s
  refine ⟨hmanagers, fun h => hget.trans (if_pos (hiff.mpr h)), fun h => hget.trans (if_neg ?_)⟩
  intro he
  obtain ⟨id, hid, hdeletes⟩ := hiff.mp he
  exact h id hid hdeletes

variable {call : Duplication}

theorem extends_copyAll (hinv : s.Inv) (hM : s.manager = some M)
    (hcall : s.Duplicable call) :
    let copies := copyAll M call.objects s ((properties call.inputData).zip call.newFileIds)
    s.Extends copies.2 ∧ copies.2.Inv ∧ List.Forall₂ (fun property copy =>
      copy.1 = property.1 ∧ s.CopyOf copies.2 M call.objects property copy.2)
        ((properties call.inputData).zip call.newFileIds) copies.1 := by
  refine copyAll_spec hinv hM ?_ fun property hmem => hcall.fresh _ (List.of_mem_zip hmem).2
  rw [List.map_snd_zip hcall.length_newFileIds.le]
  exact hcall.nodup_newFileIds

theorem Inv.store (hinv : s.Inv)
    (h : s.Fresh fileId) : (s.store bytes binaryData fileId).2.Inv := by
  rw [BinaryDataService.store]
  split
  · exact hinv
  · rename_i hM
    exact hinv.addFile h hM bytes

theorem Inv.duplicate (hinv : s.Inv) (h : s.Duplicable call) :
    (s.duplicateBinaryData call).2.Inv := by
  rw [duplicateBinaryData]
  rcases hM : s.manager with _ | M
  · exact hinv
  · have hcopies := (extends_copyAll hinv hM h).2.1
    dsimp only
    split <;> exact hcopies

variable {managers : Dict String ℕ}

theorem Inv.restart (hinv : s.Inv) (h : s.KeepsManagers managers)
    (mode : BinaryDataMode) : Inv { s with mode, managers } where
  file e he := by
    obtain ⟨file, hlocate, hget⟩ := hinv.file e he
    refine ⟨file, ?_, hget⟩
    rw [locate_eq_ok_iff] at hlocate ⊢
    exact ⟨(h e he).trans hlocate.1, hlocate.2⟩
  unique := hinv.unique

theorem inv_of_run {mode : BinaryDataMode} {deletesByFileId : ℕ → Bool}
    {events : List BinaryDataEvent}
    (hguarded : Guarded step Possible (start mode managers deletesByFileId) events)
    (hrun : runInputs step (start mode managers deletesByFileId) events = .ok s) : s.Inv := by
  have hstart : (start mode managers deletesByFileId).Inv :=
    ⟨fun _ he => (by cases he), fun _ hk _ _ _ => (by cases hk)⟩
  obtain ⟨s', hrun', hinv⟩ := hguarded.exists_run (fun s event hinv hpossible => by
    cases event with
    | restart mode managers => exact ⟨_, rfl, hinv.restart hpossible mode⟩
    | store bytes binaryData fileId => exact ⟨_, rfl, hinv.store hpossible⟩
    | duplicate call => exact ⟨_, rfl, hinv.duplicate hpossible⟩) hstart
  rw [hrun] at hrun'
  cases hrun'
  exact hinv

theorem Inv.getAsBuffer_of_holds (hinv : s.Inv)
    (h : s.Holds binaryData bytes) : s.getAsBuffer binaryData = .ok bytes := by
  rw [Holds] at h
  split at h
  · rename_i hnone
    rw [getAsBuffer_of_none hnone, h]
  · rename_i id hid
    exact (getAsBuffer_eq_ok_iff hid).mpr (hinv.file (id, bytes) h)

theorem locate_deleteMany (ids : List String) (id : String) :
    (s.deleteManyByBinaryDataId ids).locate id = s.locate id := by
  have hmanagers : (s.deleteManyByBinaryDataId ids).managers = s.managers :=
    (get?_deleteMany s ids (0, id)).1
  rw [locate, hmanagers]
  rfl

theorem Inv.keeps
    (hinv : s.Inv) (hholds : s.Holds binaryData bytes)
    (h : ∀ id ∈ binaryData.fileId, ∀ file, s.locate id = .ok file →
      ∀ original, call.IsOriginal original → ¬ s.Deletes original file) :
    s.Keeps call binaryData bytes := by
  have hread := hinv.getAsBuffer_of_holds hholds
  refine ⟨hread, fun ids hids => ?_⟩
  rcases hid : binaryData.fileId with _ | id
  · rw [getAsBuffer_of_none hid] at hread ⊢
    exact hread
  · obtain ⟨file, hlocate, hget⟩ := (getAsBuffer_eq_ok_iff hid).mp hread
    refine (getAsBuffer_eq_ok_iff hid).mpr ⟨file, (locate_deleteMany ids id).trans hlocate, ?_⟩
    refine ((get?_deleteMany s ids file).2.2 fun original hmem => ?_).trans hget
    exact h id hid file hlocate original (hids original hmem)

variable {file : ℕ × String}

theorem not_keeps_of_deletes
    {id original : String} (hid : binaryData.fileId = some id)
    (hlocate : s.locate id = .ok file) (horiginal : call.IsOriginal original)
    (hdeletes : s.Deletes original file) : ¬ s.Keeps call binaryData bytes := by
  rintro ⟨_, hkept⟩
  obtain ⟨file', hlocate', hget⟩ := (getAsBuffer_eq_ok_iff hid).mp
    (hkept [original] (List.forall_mem_singleton.mpr horiginal))
  rw [locate_deleteMany, hlocate] at hlocate'
  cases hlocate'
  rw [(get?_deleteMany s [original] file).2.1 ⟨original, List.mem_cons_self, hdeletes⟩] at hget
  cases hget

theorem fileId_eq_some {original : String}
    (hid : binaryData.id = some original) (hdeletes : s.Deletes original file) :
    binaryData.fileId = some original := by
  rw [BinaryData.fileId, hid, Option.filter_some, if_pos]
  refine decide_eq_true fun hempty => ?_
  have hnone : (splitId original).2 = none := by
    rw [hempty]
    decide
  have hfile := hdeletes.2.2
  rw [hnone] at hfile
  cases hfile

theorem survives_iff_of_none (hinv : s.Inv) (hcall : s.Duplicable call)
    (hM : s.manager = none) : s.Survives call ↔ s.SameManager call := by
  have hcopies : s.duplicateBinaryData call = (.ok call.objects, s) := by
    rw [duplicateBinaryData, hM]
  rw [Survives, SameManager, hcopies, hM]
  constructor
  · rintro ⟨_, hok, hkeeps⟩ property hmem binaryData hget id hid ⟨M, hmanager, hdeletes, hfile⟩
    cases hok
    obtain ⟨_, bytes, hget', hholds⟩ := hcall.held property hmem
    rw [hget] at hget'
    cases hget'
    obtain ⟨duplicate, hduplicate, hkept⟩ := hkeeps property hmem binaryData bytes hget hholds
    rw [hget] at hduplicate
    cases hduplicate
    obtain ⟨file, hlocate, _⟩ := (getAsBuffer_eq_ok_iff hid).mp hkept.1
    obtain ⟨hM', hfileId⟩ := locate_eq_ok_iff.mp hlocate
    rw [hmanager] at hM'
    cases hM'
    refine not_keeps_of_deletes hid hlocate ⟨property, hmem, binaryData, hget, ?_⟩
      ⟨hmanager, hdeletes, ?_⟩ hkept
    · exact (Option.filter_eq_some_iff.mp hid).1
    · rw [hfileId] at hfile ⊢
      rw [Option.filter_some] at hfile ⊢
      split at hfile
      · rename_i hne
        rw [if_pos hne]
      · exact absurd rfl hfile
  · intro hsame
    refine ⟨_, rfl, fun property hmem binaryData bytes hget hholds => ⟨_, hget, ?_⟩⟩
    refine hinv.keeps hholds fun _ _ file _ original ⟨property', hmem', binaryData', hget', hid'⟩
      hdeletes => ?_
    refine hsame property' hmem' binaryData' hget' original (fileId_eq_some hid' hdeletes)
      ⟨file.1, hdeletes.1, hdeletes.2.1, ?_⟩
    rw [hdeletes.2.2]
    exact Option.some_ne_none _

theorem firstError_eq_none_iff :
    firstError copies = none ↔ ∀ copy ∈ copies, copy.2.toBool = true := by
  rw [firstError, List.findSome?_eq_none_iff]
  refine forall₂_congr fun copy _ => ?_
  rcases copy.2 with e | newId
  · exact iff_of_false (Option.some_ne_none e) Bool.false_ne_true
  · exact iff_of_true rfl rfl

theorem item_lt {inputData : List (Option (List BinaryItem))} {property : BinaryProperty}
    (h : property ∈ properties inputData) : property.item < (allItems inputData).length := by
  obtain ⟨e, he, hmem⟩ := List.mem_flatMap.mp h
  obtain ⟨ref, _, rfl⟩ := List.mem_map.mp hmem
  exact List.snd_lt_of_mem_zipIdx he

section WithManager

variable {M : ℕ} {call : Duplication} {copies : List (BinaryProperty × _) × BinaryDataService}

/-- The copies of a call, each with its binary property and file id. -/
def CopiesOf (s : BinaryDataService) (M : ℕ) (call : Duplication)
    (copies : List (BinaryProperty × Except BinaryDataError (Option String)) × BinaryDataService) :
    Prop :=
  List.Forall₂ (fun property copy =>
    copy.1 = property.1 ∧ s.CopyOf copies.2 M call.objects property copy.2)
      ((properties call.inputData).zip call.newFileIds) copies.1

theorem CopiesOf.exists_copy (h : s.CopiesOf M call copies) (hcall : s.Duplicable call)
    {property : BinaryProperty} (hmem : property ∈ properties call.inputData) :
    ∃ newFileId ∈ call.newFileIds, ∃ copy ∈ copies.1, copy.1 = property ∧
      s.CopyOf copies.2 M call.objects (property, newFileId) copy.2 := by
  obtain ⟨i, hi, rfl⟩ := List.getElem_of_mem hmem
  have hi' : i < call.newFileIds.length := hcall.length_newFileIds ▸ hi
  have hlength := h.length_eq
  rw [List.length_zip, hcall.length_newFileIds, min_self] at hlength
  have hcopy := h.get (i := i) (by rw [List.length_zip]; exact lt_min hi hi') (hlength ▸ hi)
  simp only [List.get_eq_getElem, List.getElem_zip] at hcopy
  exact ⟨_, List.getElem_mem hi', _, List.getElem_mem _, hcopy.1, hcopy.2⟩

variable {copy : BinaryProperty × Except BinaryDataError (Option String)}

theorem CopiesOf.exists_property (h : s.CopiesOf M call copies) (hmem : copy ∈ copies.1) :
    copy.1 ∈ properties call.inputData ∧ ∃ newFileId ∈ call.newFileIds,
      s.CopyOf copies.2 M call.objects (copy.1, newFileId) copy.2 := by
  obtain ⟨i, hi, rfl⟩ := List.getElem_of_mem hmem
  have hi' := h.length_eq ▸ hi
  have hcopy := h.get hi' hi
  obtain ⟨hproperty, hfile⟩ := List.of_mem_zip (List.getElem_mem hi')
  simp only [List.get_eq_getElem] at hcopy
  rw [hcopy.1]
  exact ⟨hproperty, _, hfile, hcopy.2⟩

theorem CopiesOf.firstError_eq_none_iff (h : s.CopiesOf M call copies) (hcall : s.Duplicable call)
    (hM : s.manager = some M) : firstError copies.1 = none ↔ s.SameManager call := by
  rw [BinaryDataService.firstError_eq_none_iff, SameManager, hM]
  constructor
  · intro hok property hmem binaryData hget id hid
    obtain ⟨_, bytes, hget', hholds⟩ := hcall.held property hmem
    rw [hget] at hget'
    cases hget'
    obtain ⟨newFileId, _, copy, hcopy, rfl, hspec⟩ := h.exists_copy hcall hmem
    have hcopied := hspec binaryData bytes hget hholds
    rw [Option.mem_def.mp hid] at hcopied
    rcases hcopied with ⟨hcurrent, _⟩ | ⟨_, hfailed⟩
    · exact hcurrent
    · have htrue := hok copy hcopy
      rw [hfailed] at htrue
      cases htrue
  · intro hsame copy hcopy
    obtain ⟨hmem, newFileId, _, hspec⟩ := h.exists_property hcopy
    obtain ⟨binaryData, bytes, hget, hholds⟩ := hcall.held copy.1 hmem
    have hcopied := hspec binaryData bytes hget hholds
    rcases hid : binaryData.fileId with _ | id
    · rw [hid] at hcopied
      rw [hcopied]
      rfl
    · rw [hid] at hcopied
      rcases hcopied with ⟨_, hok, _⟩ | ⟨hother, _⟩
      · rw [hok]
        rfl
      · exact absurd (hsame copy.1 hmem binaryData hget id hid) hother

theorem CopiesOf.keeps (h : s.CopiesOf M call copies) (hinv : s.Inv) (hcall : s.Duplicable call)
    (hinv' : copies.2.Inv)
    (hcopy : copy ∈ copies.1) (hok : copy.2.toBool = true) {binaryData : BinaryData}
    (hget : call.objects[copy.1.ref]? = some binaryData) (hholds : s.Holds binaryData bytes) :
    copies.2.Keeps call { binaryData with id := copy.2.toOption.join } bytes := by
  obtain ⟨_, newFileId, hnew, hspec⟩ := h.exists_property hcopy
  have hcopied := hspec binaryData bytes hget hholds
  rw [Holds] at hholds
  rcases hid : binaryData.fileId with _ | id
  · rw [hid] at hcopied hholds
    rw [hcopied]
    exact hinv'.keeps hholds fun _ hsome => by cases hsome
  rw [hid] at hcopied
  rcases hcopied with ⟨_, hnewId, hstored⟩ | ⟨_, hfailed⟩
  case inr =>
    rw [hfailed] at hok
    cases hok
  rw [hnewId]
  have hfresh := hcall.fresh newFileId hnew
  have hfileId : ({ binaryData with id := some (s.createBinaryDataId newFileId) } :
      BinaryData).fileId = some (s.createBinaryDataId newFileId) := by
    rw [BinaryData.fileId, Option.filter_some, if_pos]
    refine decide_eq_true fun hempty => ?_
    have hsplit := splitId_createBinaryDataId (s := s) hfresh.1
    rw [hempty] at hsplit
    exact absurd (congrArg Prod.snd hsplit) (Option.some_ne_none newFileId).symm
  refine hinv'.keeps ?_ fun newId hnewId file hlocate original horiginal hdeletes => ?_
  · show copies.2.Holds { binaryData with id := some (s.createBinaryDataId newFileId) } bytes
    rw [Holds, hfileId]
    exact hstored
  · -- the file ids of the originals were there before, the one of the copy was not
    have hsome : newId = s.createBinaryDataId newFileId :=
      (Option.some_inj.mp (hfileId.symm.trans hnewId)).symm
    rw [hsome, locate_eq_ok_iff, splitId_createBinaryDataId hfresh.1] at hlocate
    obtain ⟨property', hmem', binaryData', hget', hid'⟩ := horiginal
    obtain ⟨_, bytes', hget'', hholds'⟩ := hcall.held property' hmem'
    rw [hget'] at hget''
    cases hget''
    rw [Holds, fileId_eq_some hid' hdeletes] at hholds'
    obtain ⟨file', hlocate', hfile'⟩ := hinv.file (original, bytes') hholds'
    have hsecond := (locate_eq_ok_iff.mp hlocate').2
    refine hfresh.2 file' (Dict.mem_keys_iff.mpr ⟨_, hfile'⟩) ?_
    have hdeleted := (Option.filter_eq_some_iff.mp hdeletes.2.2).1
    exact (Option.some_inj.mp (hsecond.symm.trans hdeleted)).trans
      (Option.some_inj.mp hlocate.2).symm

theorem survives_iff_of_some (hinv : s.Inv) (hcall : s.Duplicable call) (hM : s.manager = some M) :
    s.Survives call ↔ s.SameManager call := by
  obtain ⟨_, hinv', hcopies⟩ := extends_copyAll hinv hM hcall
  have hcopies : s.CopiesOf M call _ := hcopies
  rw [← hcopies.firstError_eq_none_iff hcall hM, Survives, duplicateBinaryData, hM]
  dsimp only
  rcases herror : firstError (copyAll M call.objects s _).1 with _ | e
  · refine iff_of_true ⟨_, rfl, fun property hmem binaryData bytes hget hholds => ?_⟩ rfl
    have hok := firstError_eq_none_iff.mp herror
    have horder : ∀ copy ∈ (copyAll M call.objects s ((properties call.inputData).zip
        call.newFileIds)).1, copy.1.item ∈ call.order := fun copy hcopy =>
      hcall.order.mem_iff.mpr
        (List.mem_range.mpr (item_lt (hcopies.exists_property hcopy).1))
    rcases getElem?_foldl_writeId property.ref (writes (copyAll M call.objects s
        ((properties call.inputData).zip call.newFileIds)).1 call.order) call.objects
      with ⟨hnone, _⟩ | ⟨write, hwrite, href, hwritten⟩
    · obtain ⟨_, _, copy, hcopy, rfl, _⟩ := hcopies.exists_copy hcall hmem
      exact absurd rfl (hnone _ ((mem_writes_iff hok horder).mpr ⟨copy, hcopy, rfl⟩))
    · obtain ⟨copy, hcopy, rfl⟩ := (mem_writes_iff hok horder).mp hwrite
      have href' : property.ref = copy.1.ref := href.symm
      rw [hget] at hwritten
      refine ⟨_, hwritten, ?_⟩
      exact hcopies.keeps hinv hcall hinv' hcopy (hok copy hcopy) (href' ▸ hget) hholds
  · refine iff_of_false ?_ (Option.some_ne_none e)
    rintro ⟨_, hresult, _⟩
    cases hresult

end WithManager

/-- **Binary data survive duplication** exactly if all files are those of the current manager, or
there is none and they cannot be deleted. -/
theorem survives_iff {mode : BinaryDataMode} {managers : Dict String ℕ} {deletesByFileId : ℕ → Bool}
    {events : List BinaryDataEvent} {call : Duplication}
    (hguarded : Guarded step Possible (start mode managers deletesByFileId) events)
    (hrun : runInputs step (start mode managers deletesByFileId) events = .ok s)
    (hcall : s.Duplicable call) : s.Survives call ↔ s.SameManager call := by
  have hinv := inv_of_run hguarded hrun
  rcases hM : s.manager with _ | M
  · exact survives_iff_of_none hinv hcall hM
  · exact survives_iff_of_some hinv hcall hM

/-- Two file system modes with one manager, and an object store that does not delete files. -/
def threeModes : Dict String ℕ :=
  ((Dict.empty.set "filesystem" 0).set "filesystem-v2" 0).set "s3" 1

def beforeStore : BinaryDataService := start .filesystemV2 threeModes (· == 0)

def storeFile : BinaryDataEvent := .store [104, 105] {} "f1"

def duplicateItem : Duplication where
  objects :=
    [{ data := "filesystem-v2", id := some "filesystem-v2:f1", bytes := some 2 }, { data := "aGk=" }]
  inputData := [some [{ binary := some ((Dict.empty.set "file" 0).set "memory" 1) }], none]
  newFileIds := ["f2", "f3"]
  order := [0]

theorem possible_storeFile : beforeStore.Possible storeFile :=
  ⟨by decide, fun _ hk => by cases hk⟩

theorem duplicable_of_stored
    (hstored : s.stored = [("filesystem-v2:f1", [104, 105])])
    (hkeys : s.files.keys = [(0, "f1")]) : s.Duplicable duplicateItem where
  held property hmem := by
    have hproperties : properties duplicateItem.inputData = [⟨0, 0⟩, ⟨0, 1⟩] := by decide +kernel
    rw [hproperties] at hmem
    simp only [List.mem_cons, List.not_mem_nil, or_false] at hmem
    rcases hmem with rfl | rfl
    · refine ⟨_, [104, 105], rfl, ?_⟩
      show (_, _) ∈ s.stored
      rw [hstored]
      exact List.mem_cons_self
    · exact ⟨_, _, rfl, rfl⟩
  length_newFileIds := by decide +kernel
  nodup_newFileIds := by decide
  fresh fileId hmem := by
    rw [Fresh, hkeys]
    revert fileId
    decide
  order := by decide

/-- Without a restart the item is duplicated. -/
theorem survives_duplicateItem :
    (beforeStore.store [104, 105] {} "f1").2.Survives duplicateItem := by
  have hguarded : Guarded step Possible (start .filesystemV2 threeModes (· == 0)) [storeFile] :=
    ⟨possible_storeFile, fun _ _ => trivial⟩
  refine (survives_iff hguarded rfl (duplicable_of_stored rfl rfl)).mpr ?_
  intro property hmem binaryData hget id hid
  have hproperties : properties duplicateItem.inputData = [⟨0, 0⟩, ⟨0, 1⟩] := by decide +kernel
  rw [hproperties] at hmem
  simp only [List.mem_cons, List.not_mem_nil, or_false] at hmem
  rcases hmem with rfl | rfl
  · cases hget
    cases hid
    show threeModes.get? (splitId "filesystem-v2:f1").1 = some 0
    decide +kernel
  · cases hget
    cases hid

def afterRestart : BinaryDataService :=
  { (beforeStore.store [104, 105] {} "f1").2 with mode := .s3, managers := threeModes }

/-- After a restart with the object store the file is not found. -/
theorem not_survives_restart : ¬ ∀ (mode : BinaryDataMode) (managers : Dict String ℕ)
    (deletesByFileId : ℕ → Bool) (events : List BinaryDataEvent) (s : BinaryDataService)
    (call : Duplication),
    Guarded step Possible (start mode managers deletesByFileId) events →
      runInputs step (start mode managers deletesByFileId) events = .ok s →
        s.Duplicable call → s.Survives call := by
  intro h
  have hrestart : Guarded step Possible beforeStore [storeFile, .restart .s3 threeModes] := by
    refine ⟨possible_storeFile, fun s hs => ⟨?_, fun _ _ => trivial⟩⟩
    cases hs
    exact fun _ _ => rfl
  obtain ⟨objects, hok, _⟩ := h .filesystemV2 threeModes (· == 0) _ afterRestart duplicateItem
    hrestart rfl (duplicable_of_stored rfl rfl)
  have hfailed : (afterRestart.duplicateBinaryData duplicateItem).1 = .error .fileNotFound := by
    decide +kernel
  rw [hfailed] at hok
  cases hok

theorem holds_store {s : BinaryDataService} {binaryData : BinaryData} (bytes : List UInt8)
    (fileId : String) (hid : s.manager = none → binaryData.fileId = none) :
    (s.store bytes binaryData fileId).2.Holds (s.store bytes binaryData fileId).1 bytes := by
  rw [BinaryDataService.store]
  rcases hM : s.manager with _ | M
  · have hnone : BinaryData.fileId { binaryData with
        data := Base64.encode bytes, bytes := some bytes.length } = none := hid hM
    rw [Holds, hnone]
    exact Base64.decode_encode bytes
  · have hfileId : ({
        id := some (s.createBinaryDataId fileId)
        data := s.mode.toString
        bytes := some bytes.length } : BinaryData).fileId = some (s.createBinaryDataId fileId) := by
      rw [BinaryData.fileId, Option.filter_some, if_pos]
      refine decide_eq_true fun hempty => ?_
      have htext := congrArg String.toList hempty
      simp [BinaryDataService.createBinaryDataId] at htext
    rw [Holds, hfileId]
    exact List.mem_append_right _ List.mem_cons_self

/-- **Step lemma**: what was stored before is still there. -/
theorem Inv.step {s t : BinaryDataService} {event : BinaryDataEvent} (hinv : s.Inv)
    (hpossible : s.Possible event) (hstep : s.step event = .ok t) :
    t.Inv ∧ ∀ e ∈ s.stored, e ∈ t.stored := by
  cases event with
  | restart mode managers =>
    cases hstep
    exact ⟨hinv.restart hpossible mode, fun _ he => he⟩
  | store bytes binaryData fileId =>
    cases hstep
    refine ⟨hinv.store hpossible, fun e he => ?_⟩
    rw [BinaryDataService.store]
    split
    · exact he
    · exact List.mem_append_left _ he
  | duplicate call =>
    cases hstep
    refine ⟨hinv.duplicate hpossible, fun e he => ?_⟩
    rw [duplicateBinaryData]
    rcases hM : s.manager with _ | M
    · exact he
    · have hextends := (extends_copyAll hinv hM hpossible).1
      dsimp only
      split <;> exact hextends.stored e he

/-- **What was stored is read again**, whatever is stored and duplicated after it, and in whatever
modes the service is started again. -/
theorem getAsBuffer_of_stored {s t : BinaryDataService} {mode : BinaryDataMode}
    {managers : Dict String ℕ} {deletesByFileId : ℕ → Bool} {before after : List BinaryDataEvent}
    {bytes : List UInt8} {binaryData : BinaryData} {fileId : String}
    (hbefore : Guarded step Possible (start mode managers deletesByFileId) before)
    (hs : runInputs step (start mode managers deletesByFileId) before = .ok s)
    (hafter : Guarded step Possible s (.store bytes binaryData fileId :: after))
    (ht : runInputs step s (.store bytes binaryData fileId :: after) = .ok t)
    (hid : s.manager = none → binaryData.fileId = none) :
    t.getAsBuffer (s.store bytes binaryData fileId).1 = .ok bytes := by
  have hinv : (s.store bytes binaryData fileId).2.Inv := (inv_of_run hbefore hs).store hafter.1
  obtain ⟨t', ht', hinv', hholds⟩ := (hafter.2 _ rfl).exists_run
    (I := fun u => u.Inv ∧ u.Holds (s.store bytes binaryData fileId).1 bytes)
    (fun u event hu hpossible => by
      have hstep := fun v => hu.1.step (t := v) hpossible
      have hnext : ∃ v, u.step event = .ok v := by cases event <;> exact ⟨_, rfl⟩
      obtain ⟨v, hv⟩ := hnext
      obtain ⟨hinv, hstored⟩ := hstep v hv
      refine ⟨v, hv, hinv, ?_⟩
      have hholds := hu.2
      rw [Holds] at hholds ⊢
      split at hholds
      · exact hholds
      · exact hstored _ hholds) ⟨hinv, holds_store bytes fileId hid⟩
  have hrun : runInputs step (s.store bytes binaryData fileId).2 after = .ok t := ht
  rw [ht', Except.ok.injEq] at hrun
  subst hrun
  exact hinv'.getAsBuffer_of_holds hholds

/-- A file is stored, and then data in memory after a restart with the default mode. -/
theorem getAsBuffer_of_stored_hi :
    ({ (beforeStore.store [104, 105] {} "f1").2 with
        mode := .default, managers := threeModes } : BinaryDataService).getAsBuffer
      (beforeStore.store [104, 105] {} "f1").1 = .ok [104, 105] := by
  have hrestart : Guarded step Possible beforeStore [storeFile, .restart .default threeModes] :=
    ⟨possible_storeFile, fun s hs => by cases hs; exact ⟨fun _ _ => rfl, fun _ _ => trivial⟩⟩
  exact @getAsBuffer_of_stored beforeStore _ .filesystemV2 threeModes (· == 0) [] _ _ _ _ trivial rfl
    hrestart rfl fun hnone => by cases hnone

end N8n.BinaryDataService
