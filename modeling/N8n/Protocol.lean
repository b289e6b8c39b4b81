/-
The messages between a worker and its tabs: `protocol.ts`.

A message names its document by an id in front of the payload, with the number of its bytes in two
bytes.  A longer id has its length written modulo 2 ^ 16, and nothing throws.

* **`faithful_iff`** — messages come back iff the id has less than 2 ^ 16 bytes, bytes come back iff
  the id in them has no byte order mark, and ids are told apart by their bytes without the mark.
-/
import N8n.Interfaces
import N8n.Runs
import N8n.Utf8

namespace N8n.Protocol

abbrev Bytes := List UInt8

structure Message where
  messageType : UInt8
  payload : Bytes
  deriving DecidableEq

structure WorkerMessage extends Message where
  docId : String
  deriving DecidableEq

def encodeMessage (messageType : UInt8) (payload : Bytes) : Bytes := messageType :: payload

def decodeMessage (data : Bytes) : Except JsError Message :=
  match data with
  | [] => .error (.raised "Empty message")
  | messageType :: payload => .ok ⟨messageType, payload⟩

/-- The length is written as a big-endian 16-bit number, whatever it is. -/
def encodeWithDocId (messageType : UInt8) (docId : String) (payload : Bytes) : Bytes :=
  let docIdBytes := Utf8.encode docId
  let docIdLen := docIdBytes.length
  messageType :: .ofNat (docIdLen / 256 % 256) :: .ofNat (docIdLen % 256) ::
    (docIdBytes ++ payload)

def docIdLen : Bytes → ℕ
  | _ :: high :: low :: _ => high.toNat * 256 + low.toNat
  | _ => 0

def docIdBytes (data : Bytes) : Bytes := (data.drop 3).take (docIdLen data)

def decodeWithDocId (data : Bytes) : Except JsError WorkerMessage :=
  match data with
  | messageType :: _ :: _ :: rest =>
    if data.length < 3 + docIdLen data then
      .error (.raised "Message too short for declared docId length")
    else .ok {
      messageType
      docId := Utf8.decode (docIdBytes data)
      payload := rest.drop (docIdLen data) }
  | _ => .error (.raised "Message too short to contain docId")

def stripDocId (data : Bytes) : Except JsError Bytes := do
  let message ← decodeWithDocId data
  return encodeMessage message.messageType message.payload

def addDocId (docId : String) (data : Bytes) : Except JsError Bytes := do
  let message ← decodeMessage data
  return encodeWithDocId message.messageType docId message.payload

variable {docId : String} {messageType : UInt8} {payload data : Bytes} {message : WorkerMessage}

/-- The number of bytes of the id fits in two bytes. -/
def Fits (docId : String) : Prop := (Utf8.encode docId).length < 2 ^ 16

instance : Decidable (Fits docId) := inferInstanceAs (Decidable (_ < _))

theorem docIdLen_encodeWithDocId (messageType : UInt8) (docId : String) (payload : Bytes) :
    docIdLen (encodeWithDocId messageType docId payload) =
      (Utf8.encode docId).length % 2 ^ 16 := by
  simp only [encodeWithDocId, docIdLen, UInt8.toNat_ofNat']
  omega

theorem decodeWithDocId_encodeWithDocId :
    decodeWithDocId (encodeWithDocId messageType docId payload) = .ok {
      messageType
      docId := Utf8.decode
        ((Utf8.encode docId ++ payload).take ((Utf8.encode docId).length % 2 ^ 16))
      payload := (Utf8.encode docId ++ payload).drop ((Utf8.encode docId).length % 2 ^ 16) } := by
  have hlen := docIdLen_encodeWithDocId messageType docId payload
  have henough : ¬ (encodeWithDocId messageType docId payload).length <
      3 + docIdLen (encodeWithDocId messageType docId payload) := by
    have hmod := Nat.mod_le (Utf8.encode docId).length (2 ^ 16)
    rw [hlen]
    simp only [encodeWithDocId, List.length_cons, List.length_append]
    omega
  rw [← hlen]
  exact if_neg henough

theorem decode_encode_iff (h : docId.toList.head? ≠ some Utf8.byteOrderMark) :
    decodeWithDocId (encodeWithDocId messageType docId payload) =
      .ok ⟨⟨messageType, payload⟩, docId⟩ ↔ Fits docId := by
  rw [decodeWithDocId_encodeWithDocId]
  constructor
  · intro heq
    -- the payload that was read is longer by what the length leaves out
    have hpayload := congrArg (fun message => message.payload.length) (Except.ok.inj heq)
    simp only [List.length_drop, List.length_append] at hpayload
    rw [Fits]
    omega
  · intro hfits
    rw [Nat.mod_eq_of_lt hfits, List.take_left, List.drop_left, Utf8.decode_encode h]

theorem strip_add_iff (hdata : data ≠ []) :
    (addDocId docId data >>= stripDocId) = .ok data ↔ Fits docId := by
  obtain ⟨messageType, payload, rfl⟩ := List.exists_cons_of_ne_nil hdata
  have hstrip : (addDocId docId (messageType :: payload) >>= stripDocId) = .ok (messageType ::
      (Utf8.encode docId ++ payload).drop ((Utf8.encode docId).length % 2 ^ 16)) := by
    show stripDocId (encodeWithDocId messageType docId payload) = _
    rw [stripDocId, decodeWithDocId_encodeWithDocId]
    rfl
  rw [hstrip]
  constructor
  · intro heq
    have hpayload := congrArg List.length (Except.ok.inj heq)
    simp only [List.length_cons, List.length_drop, List.length_append] at hpayload
    rw [Fits]
    omega
  · intro hfits
    rw [Nat.mod_eq_of_lt hfits, List.drop_left]

theorem exists_of_decode (h : decodeWithDocId data = .ok message) :
    ∃ high low, data = message.messageType :: high :: low :: (docIdBytes data ++ message.payload) ∧
      (docIdBytes data).length = high.toNat * 256 + low.toNat ∧
      message.docId = Utf8.decode (docIdBytes data) := by
  rcases data with _ | ⟨messageType, _ | ⟨high, _ | ⟨low, rest⟩⟩⟩
  · cases h
  · cases h
  · cases h
  · rw [decodeWithDocId] at h
    split at h
    · cases h
    · next henough =>
      cases h
      refine ⟨high, low, ?_, ?_, rfl⟩
      · simp only [docIdBytes, List.drop_succ_cons, List.drop_zero, List.take_append_drop]
      · simp only [List.length_cons, docIdLen] at henough
        simp only [docIdBytes, docIdLen, List.drop_succ_cons, List.drop_zero, List.length_take]
        omega

theorem encodeWithDocId_of_decode (h : decodeWithDocId data = .ok message)
    (hutf8 : Utf8.IsUtf8 (docIdBytes data)) :
    encodeWithDocId message.messageType message.docId message.payload = data ↔
      ¬ Utf8.mark <+: docIdBytes data := by
  obtain ⟨high, low, hdata, hlen, hdocId⟩ := exists_of_decode h
  rw [← Utf8.withoutMark_eq_self_iff]
  have hwritten : Utf8.encode message.docId = Utf8.withoutMark (docIdBytes data) := by
    rw [hdocId, Utf8.encode_decode hutf8]
  constructor
  · intro heq
    rw [encodeWithDocId, hwritten] at heq
    have htail := heq.trans hdata
    simp only [List.cons.injEq, true_and] at htail
    exact List.append_cancel_right htail.2.2
  · intro hsame
    have hhigh := high.toNat_lt
    have hlow := low.toNat_lt
    have hfirst : UInt8.ofNat ((docIdBytes data).length / 256 % 256) = high := by
      rw [← UInt8.toNat_inj, UInt8.toNat_ofNat', hlen]
      omega
    have hsecond : UInt8.ofNat ((docIdBytes data).length % 256) = low := by
      rw [← UInt8.toNat_inj, UInt8.toNat_ofNat', hlen]
      omega
    simp only [encodeWithDocId, hwritten, hsame, hfirst, hsecond]
    exact hdata.symm

theorem docId_eq_iff {data₁ data₂ : Bytes} {message₁ message₂ : WorkerMessage}
    (h₁ : decodeWithDocId data₁ = .ok message₁) (h₂ : decodeWithDocId data₂ = .ok message₂)
    (hutf8₁ : Utf8.IsUtf8 (docIdBytes data₁)) (hutf8₂ : Utf8.IsUtf8 (docIdBytes data₂)) :
    message₁.docId = message₂.docId ↔
      Utf8.withoutMark (docIdBytes data₁) = Utf8.withoutMark (docIdBytes data₂) := by
  obtain ⟨-, -, -, -, hdocId₁⟩ := exists_of_decode h₁
  obtain ⟨-, -, -, -, hdocId₂⟩ := exists_of_decode h₂
  rw [← Utf8.encode_decode hutf8₁, ← Utf8.encode_decode hutf8₂, ← hdocId₁, ← hdocId₂]
  exact Utf8.encode_injective.eq_iff.symm

/-- **When messages are faithful**: one comes back iff its id fits, with the id added and stripped
as well; bytes that are read come back iff there is no mark in front of the id; and messages are
read as for one document iff their ids are the same but for a mark. -/
theorem faithful_iff (h : docId.toList.head? ≠ some Utf8.byteOrderMark) (hdata : data ≠ []) :
    (∀ messageType payload, decodeWithDocId (encodeWithDocId messageType docId payload) =
      .ok ⟨⟨messageType, payload⟩, docId⟩ ↔ Fits docId) ∧
    ((addDocId docId data >>= stripDocId) = .ok data ↔ Fits docId) ∧
    (∀ received message, decodeWithDocId received = .ok message →
      Utf8.IsUtf8 (docIdBytes received) →
      (encodeWithDocId message.messageType message.docId message.payload = received ↔
        ¬ Utf8.mark <+: docIdBytes received)) ∧
    ∀ received₁ received₂ message₁ message₂, decodeWithDocId received₁ = .ok message₁ →
      decodeWithDocId received₂ = .ok message₂ → Utf8.IsUtf8 (docIdBytes received₁) →
      Utf8.IsUtf8 (docIdBytes received₂) → (message₁.docId = message₂.docId ↔
        Utf8.withoutMark (docIdBytes received₁) = Utf8.withoutMark (docIdBytes received₂)) :=
  ⟨fun _ _ => decode_encode_iff h, strip_add_iff hdata, fun _ _ => encodeWithDocId_of_decode,
    fun _ _ _ _ => docId_eq_iff⟩

/-- With a short id, a message comes back. -/
theorem faithful_short :
    decodeWithDocId (encodeWithDocId 1 "crdt-ü" [7, 8]) = .ok ⟨⟨1, [7, 8]⟩, "crdt-ü"⟩ := by
  have hmark : "crdt-ü".toList.head? ≠ some Utf8.byteOrderMark := by decide
  exact ((faithful_iff hmark (List.cons_ne_nil 1 [])).1 1 [7, 8]).mpr (by decide)

/-- An id of 2 ^ 16 bytes has the length 0 written, and becomes payload. -/
theorem not_faithful_long :
    ¬ decodeWithDocId (encodeWithDocId 0 (.ofList (List.replicate 65536 'a')) []) =
      .ok ⟨⟨0, []⟩, .ofList (List.replicate 65536 'a')⟩ := by
  intro h
  have hfits := (decode_encode_iff (by
    rw [String.toList_ofList, List.head?_replicate]
    decide)).mp h
  have hchar : (String.utf8EncodeChar 'a').length = 1 := by decide
  rw [Fits, Utf8.encode, String.toList_ofList, List.length_flatMap, List.map_replicate,
    List.sum_replicate_nat, hchar] at hfits
  omega

end N8n.Protocol
