/-
The binary data service.

Binary data are held in memory, as base64, or as a file of a storage manager; then their id is the
name of the mode and the file id.  Data are read with the manager of the mode of their id, and
deleted with it.  They are duplicated with the manager of the current mode, whatever the mode of
their id: all copies are started first, and the ids of the items are replaced as their copies are
done, so that items that share binary data are changed together.

A manager is a map from file ids to bytes; what else is kept with a file is left out.  Managers are
numbered, since a manager may be registered for several modes.

* `BinaryDataService` — the current mode, the managers and their files;
* `store`, `getAsBuffer`, `deleteManyByBinaryDataId`, `duplicateBinaryData` — the calls.
-/
import N8n.Base64
import N8n.Runs
import N8n.WebhookTable

namespace N8n

/-- The modes, with the older one of which ids are still stored. -/
inductive BinaryDataMode where
  | default | filesystem | filesystemV2 | s3 | database
  deriving DecidableEq

namespace BinaryDataMode

def toString : BinaryDataMode → String
  | default => "default"
  | filesystem => "filesystem"
  | filesystemV2 => "filesystem-v2"
  | s3 => "s3"
  | database => "database"

end BinaryDataMode

structure BinaryData where
  data : String := ""
  id : Option String := none
  bytes : Option ℕ := none
  deriving DecidableEq

structure BinaryItem where
  binary : Option (Dict String ℕ) := none

def BinaryData.fileId (binaryData : BinaryData) : Option String :=
  binaryData.id.filter (· ≠ "")

inductive BinaryDataError where
  | invalidManager (mode : String)
  | fileNotFound
  deriving DecidableEq

/-- The service, with the files of the managers, by their numbers, and the ids that were given out,
with the bytes that were stored. -/
structure BinaryDataService where
  mode : BinaryDataMode
  managers : Dict String ℕ
  /-- Whether the manager has `deleteManyByFileId`. -/
  deletesByFileId : ℕ → Bool
  files : Dict (ℕ × String) (List UInt8) := .empty
  stored : List (String × List UInt8) := []

namespace BinaryDataService

def splitId (id : String) : String × Option String :=
  match (id.toList.splitOn ':').map String.ofList with
  | [] => ("", none)
  | [mode] => (mode, none)
  | mode :: fileId :: _ => (mode, some fileId)

variable (s : BinaryDataService)

def manager : Option ℕ := s.managers.get? s.mode.toString

def createBinaryDataId (fileId : String) : String := s.mode.toString ++ ":" ++ fileId

/-- Where the file of an id is, with the manager of its mode. -/
def locate (id : String) : Except BinaryDataError (ℕ × String) :=
  match s.managers.get? (splitId id).1, (splitId id).2 with
  | none, _ => .error (.invalidManager (splitId id).1)
  | some _, none => .error .fileNotFound
  | some M, some fileId => .ok (M, fileId)

/-- The manager has a new file, and its id is given out. -/
def addFile (M : ℕ) (fileId : String) (bytes : List UInt8) : BinaryDataService :=
  { s with
    files := s.files.set (M, fileId) bytes
    stored := s.stored ++ [(s.createBinaryDataId fileId, bytes)] }

/-- `store`, with the file id that a manager chooses. -/
def store (bytes : List UInt8) (binaryData : BinaryData) (fileId : String) :
    BinaryData × BinaryDataService :=
  match s.manager with
  | none =>
    ({ binaryData with data := Base64.encode bytes, bytes := some bytes.length }, s)
  | some M =>
    ({ id := some (s.createBinaryDataId fileId), data := s.mode.toString,
       bytes := some bytes.length },
      s.addFile M fileId bytes)

def getAsBuffer (binaryData : BinaryData) : Except BinaryDataError (List UInt8) :=
  match binaryData.fileId with
  | none => .ok (Base64.decode binaryData.data)
  | some id => do
    let file ← s.locate id
    match s.files.get? file with
    | none => .error .fileNotFound
    | some bytes => .ok bytes

def addFileId (fileIdsByMode : Dict String (List String)) (id : String) :
    Dict String (List String) :=
  match (splitId id).2.filter (· ≠ "") with
  | none => fileIdsByMode
  | some fileId =>
    let mode := (splitId id).1
    fileIdsByMode.set mode ((fileIdsByMode.get? mode).getD [] ++ [fileId])

def fileIdsByMode (ids : List String) : Dict String (List String) := ids.foldl addFileId .empty

/-- The files of a mode are deleted, unless its manager is missing or cannot do it. -/
def deleteManyByFileId (s : BinaryDataService) (e : String × List String) : BinaryDataService :=
  match s.managers.get? e.1 with
  | none => s
  | some M =>
    if s.deletesByFileId M then { s with files := s.files.eraseAll (e.2.map fun f => (M, f)) } else s

def deleteManyByBinaryDataId (ids : List String) : BinaryDataService :=
  (fileIdsByMode ids).entries.foldl deleteManyByFileId s

/-- A binary property: the number of its item, and the binary data that it refers to. -/
structure BinaryProperty where
  item : ℕ
  ref : ℕ
  deriving DecidableEq

def itemRefs (item : BinaryItem) : List ℕ :=
  match item.binary with
  | none => []
  | some binary => binary.objectKeys.filterMap binary.get?

def allItems (inputData : List (Option (List BinaryItem))) : List BinaryItem :=
  inputData.flatMap fun items => items.getD []

def properties (inputData : List (Option (List BinaryItem))) : List BinaryProperty :=
  (allItems inputData).zipIdx.flatMap fun e => (itemRefs e.1).map (⟨e.2, ·⟩)

/-- A call of `duplicateBinaryData`: the binary data, the items that refer to them, the file ids for
the copies, and the order in which the items are done. -/
structure Duplication where
  objects : List BinaryData
  inputData : List (Option (List BinaryItem))
  newFileIds : List String
  order : List ℕ

/-- The copy for a binary property by the current manager: its id, if there is a file. -/
def copyByFileId (M : ℕ) (binaryData : Option BinaryData) (newFileId : String) :
    Except BinaryDataError (Option String) × BinaryDataService :=
  match binaryData.bind BinaryData.fileId with
  | none => (.ok none, s)
  | some id =>
    match (splitId id).2.bind fun fileId => s.files.get? (M, fileId) with
    | none => (.error .fileNotFound, s)
    | some bytes =>
      (.ok (some (s.createBinaryDataId newFileId)), s.addFile M newFileId bytes)

/-- A copy that fails does not keep the others from being made. -/
def copyAll (M : ℕ) (objects : List BinaryData) (s : BinaryDataService) :
    List (BinaryProperty × String) →
      List (BinaryProperty × Except BinaryDataError (Option String)) × BinaryDataService
  | [] => ([], s)
  | (property, newFileId) :: rest =>
    let copy := s.copyByFileId M objects[property.ref]? newFileId
    let copies := copyAll M objects copy.2 rest
    ((property, copy.1) :: copies.1, copies.2)

/-- The ids that are written: those of an item if all its copies were made. -/
def writes (copies : List (BinaryProperty × Except BinaryDataError (Option String)))
    (order : List ℕ) : List (ℕ × Option String) :=
  order.flatMap fun item =>
    let own := copies.filter (·.1.item = item)
    if own.all (·.2.toBool) then own.map fun copy => (copy.1.ref, copy.2.toOption.join) else []

def writeId (objects : List BinaryData) (write : ℕ × Option String) : List BinaryData :=
  objects.modify write.1 fun binaryData => { binaryData with id := write.2 }

def firstError (copies : List (BinaryProperty × Except BinaryDataError (Option String))) :
    Option BinaryDataError :=
  copies.findSome? fun copy => match copy.2 with
    | .error e => some e
    | .ok _ => none

variable (call : Duplication)

/-- The items stay the same; their binary data are changed. -/
def duplicateBinaryData : Except BinaryDataError (List BinaryData) × BinaryDataService :=
  match s.manager with
  | none => (.ok call.objects, s)
  | some M =>
    let copies := copyAll M call.objects s ((properties call.inputData).zip call.newFileIds)
    match firstError copies.1 with
    | some e => (.error e, copies.2)
    | none => (.ok ((writes copies.1 call.order).foldl writeId call.objects), copies.2)

/-- The bytes that were stored for the binary data. -/
def Holds (binaryData : BinaryData) (bytes : List UInt8) : Prop :=
  match binaryData.fileId with
  | none => Base64.decode binaryData.data = bytes
  | some id => (id, bytes) ∈ s.stored

def Fresh (fileId : String) : Prop := ':' ∉ fileId.toList ∧ ∀ k ∈ s.files.keys, k.2 ≠ fileId

/-- The items refer to binary data that are in memory or were stored, and the copies have fresh file
ids. -/
structure Duplicable : Prop where
  held : ∀ property ∈ properties call.inputData, ∃ binaryData bytes,
    call.objects[property.ref]? = some binaryData ∧ s.Holds binaryData bytes
  length_newFileIds : call.newFileIds.length = (properties call.inputData).length
  nodup_newFileIds : call.newFileIds.Nodup
  fresh : ∀ fileId ∈ call.newFileIds, s.Fresh fileId
  order : call.order.Perm (List.range (allItems call.inputData).length)

inductive BinaryDataEvent where
  /-- A restart with another mode and other managers. -/
  | restart (mode : BinaryDataMode) (managers : Dict String ℕ)
  | store (bytes : List UInt8) (binaryData : BinaryData) (fileId : String)
  | duplicate (call : Duplication)

/-- The managers of the modes of all ids stay registered. -/
def KeepsManagers (managers : Dict String ℕ) : Prop :=
  ∀ e ∈ s.stored, managers.get? (splitId e.1).1 = s.managers.get? (splitId e.1).1

def Possible : BinaryDataEvent → Prop
  | .restart _ managers => s.KeepsManagers managers
  | .store _ _ fileId => s.Fresh fileId
  | .duplicate call => s.Duplicable call

def step (s : BinaryDataService) : BinaryDataEvent → Except Unit BinaryDataService
  | .restart mode managers => .ok { s with mode, managers }
  | .store bytes binaryData fileId => .ok (s.store bytes binaryData fileId).2
  | .duplicate call => .ok (s.duplicateBinaryData call).2

/-- Before anything is stored. -/
def start (mode : BinaryDataMode) (managers : Dict String ℕ) (deletesByFileId : ℕ → Bool) :
    BinaryDataService :=
  { mode, managers, deletesByFileId }

/-- One of the items refers to binary data with this id. -/
def Duplication.IsOriginal (id : String) : Prop :=
  ∃ property ∈ properties call.inputData, ∃ binaryData,
    call.objects[property.ref]? = some binaryData ∧ binaryData.id = some id

/-- The binary data have the bytes now and when originals of the call are deleted. -/
def Keeps (binaryData : BinaryData) (bytes : List UInt8) : Prop :=
  s.getAsBuffer binaryData = .ok bytes ∧
    ∀ ids, (∀ id ∈ ids, call.IsOriginal id) →
      (s.deleteManyByBinaryDataId ids).getAsBuffer binaryData = .ok bytes

/-- **Binary data survive duplication**: it does not fail, and all duplicates keep the bytes that
were stored. -/
def Survives : Prop :=
  ∃ objects, (s.duplicateBinaryData call).1 = .ok objects ∧
    ∀ property ∈ properties call.inputData, ∀ binaryData bytes,
      call.objects[property.ref]? = some binaryData → s.Holds binaryData bytes →
        ∃ duplicate, objects[property.ref]? = some duplicate ∧
          (s.duplicateBinaryData call).2.Keeps call duplicate bytes

/-- The file of the id would be deleted with it. -/
def Deletable (id : String) : Prop :=
  ∃ M, s.managers.get? (splitId id).1 = some M ∧ s.deletesByFileId M = true ∧
    (splitId id).2.filter (· ≠ "") ≠ none

/-- **All files are those of the current manager**; if there is none, they cannot be deleted. -/
def SameManager : Prop :=
  ∀ property ∈ properties call.inputData, ∀ binaryData,
    call.objects[property.ref]? = some binaryData → ∀ id ∈ binaryData.fileId,
      match s.manager with
      | none => ¬ s.Deletable id
      | some M => s.managers.get? (splitId id).1 = some M

end BinaryDataService

end N8n
