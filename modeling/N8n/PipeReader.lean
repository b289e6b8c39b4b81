/-
The pipe from a Python task to its runner: `_write_bytes` and `PipeReader`.

A message is its length in four bytes and its payload.  The task writes each of them in parts, the
reader reads each of them in parts, and the two take turns in any order; the task may be stopped
anywhere.  What the reader makes of a payload is a parameter.

* **`delivers_of_fits`** — in every run the reader ends with the payload, or at the end of a pipe
  whose task was stopped.
-/
import N8n.Runs
import Mathlib.Algebra.Group.Nat.Defs

namespace N8n.Python

/-- `n.to_bytes(k, "big")`, for a number that fits. -/
def toBytes : ℕ → ℕ → List UInt8
  | 0, _ => []
  | k + 1, n => toBytes k (n / 256) ++ [UInt8.ofNat n]

/-- `int.from_bytes(bytes, "big")`. -/
def fromBytes (bytes : List UInt8) : ℕ := bytes.foldl (fun n b => 256 * n + b.toNat) 0

theorem length_toBytes (k n : ℕ) : (toBytes k n).length = k := by
  induction k generalizing n with
  | zero => rfl
  | succ k ih => rw [toBytes, List.length_append, ih, List.length_singleton]

theorem fromBytes_toBytes {k n : ℕ} (h : n < 256 ^ k) : fromBytes (toBytes k n) = n := by
  induction k generalizing n with
  | zero => exact (Nat.lt_one_iff.mp h).symm
  | succ k ih =>
    have hdiv : n / 256 < 256 ^ k := Nat.div_lt_of_lt_mul (by rwa [Nat.pow_succ, Nat.mul_comm] at h)
    rw [toBytes, fromBytes, List.foldl_append]
    show 256 * fromBytes (toBytes k (n / 256)) + (UInt8.ofNat n).toNat = n
    rw [ih hdiv, UInt8.toNat_ofNat']
    exact Nat.div_add_mod n 256

def pipeMsgPrefixLength : ℕ := 4

inductive PipeError (E : Type) where
  | endOfFile
  | invalidLength (length : ℕ)
  | content (error : E)

/-- Where `PipeReader.run` is, with what it has read. -/
inductive ReadPoint (M E : Type) where
  | length (result : List UInt8)
  | payload (n : ℕ) (result : List UInt8)
  | ended (outcome : Except (PipeError E) M)

/-- `buffers` is what is left to write; the writer was stopped if the task was killed, or a call of
it failed. -/
structure PipeState (M E : Type) where
  buffers : List (List UInt8)
  writing : Bool := true
  stopped : Bool := false
  pipe : List UInt8 := []
  point : ReadPoint M E := .length []
  messageSize : Option ℕ := none

inductive PipeInput where
  | write (n : ℕ)
  | close
  | stop
  | read (n : ℕ)

section

variable {M E : Type} (parse : List UInt8 → Except E M) (capacity : ℕ)

def start (payload : List UInt8) : PipeState M E where
  buffers := [toBytes pipeMsgPrefixLength payload.length, payload]

/-- `os.write`, for the buffer of which something is left. -/
def PipeState.write (s : PipeState M E) (n : ℕ) : Except Unit (PipeState M E) :=
  match s.buffers.filter (!·.isEmpty) with
  | [] => .error ()
  | data :: buffers =>
    if s.writing ∧ 0 < n ∧ n ≤ data.length ∧ s.pipe.length + n ≤ capacity then
      .ok { s with buffers := data.drop n :: buffers, pipe := s.pipe ++ data.take n }
    else .error ()

/-- The loop of `_read_exact_bytes` goes on with what was read, or `run` does behind it. -/
def PipeState.goOn (s : PipeState M E) : PipeState M E :=
  match s.point with
  | .length result =>
    if result.length < pipeMsgPrefixLength then s
    else if fromBytes result = 0 then { s with point := .ended (.error (.invalidLength 0)) }
    else { s with point := .payload (fromBytes result) [], messageSize := some (fromBytes result) }
  | .payload n result =>
    if result.length < n then s else { s with point := .ended ((parse result).mapError .content) }
  | .ended _ => s

/-- How many bytes `os.read` is asked for, and where they are put. -/
def ReadPoint.wanted : ReadPoint M E → ℕ × (List UInt8 → ReadPoint M E)
  | .length result => (pipeMsgPrefixLength - result.length, fun chunk => .length (result ++ chunk))
  | .payload n result => (n - result.length, fun chunk => .payload n (result ++ chunk))
  | .ended outcome => (0, fun _ => .ended outcome)

def ReadPoint.isEnded : ReadPoint M E → Bool
  | .ended _ => true
  | _ => false

/-- `os.read`: some bytes, or none at the end of a pipe that was closed. -/
def PipeState.read (s : PipeState M E) (n : ℕ) : Except Unit (PipeState M E) :=
  if 0 < n ∧ n ≤ s.point.wanted.1 ∧ n ≤ s.pipe.length then
    .ok (({ s with point := s.point.wanted.2 (s.pipe.take n), pipe := s.pipe.drop n } :
      PipeState M E).goOn parse)
  else if n = 0 ∧ s.pipe = [] ∧ s.writing = false ∧ s.point.isEnded = false then
    .ok { s with point := .ended (.error .endOfFile) }
  else .error ()

/-- What can happen next; a call that cannot come, or blocks, is an error here. -/
def PipeState.step (s : PipeState M E) : PipeInput → Except Unit (PipeState M E)
  | .write n => s.write capacity n
  | .close =>
    if s.writing ∧ s.buffers.flatten = [] then .ok { s with writing := false } else .error ()
  | .stop => if s.writing then .ok { s with writing := false, stopped := true } else .error ()
  | .read n => s.read parse n

variable (payload : List UInt8)

def message : List UInt8 := toBytes pipeMsgPrefixLength payload.length ++ payload

def Delivered (s : PipeState M E) (outcome : Except (PipeError E) M) : Prop :=
  (outcome = (parse payload).mapError .content ∧ s.messageSize = some payload.length) ∨
    (outcome = .error .endOfFile ∧ s.stopped = true)

/-- What was read so far. -/
def Consumed (s : PipeState M E) (consumed : List UInt8) : Prop :=
  match s.point with
  | .length result => consumed = result ∧ result.length < pipeMsgPrefixLength
  | .payload n result => n = payload.length ∧ result.length < n ∧ s.messageSize = some n ∧
      consumed = toBytes pipeMsgPrefixLength payload.length ++ result
  | .ended outcome => Delivered parse payload s outcome

structure PipeInv (s : PipeState M E) : Prop where
  stream : ∃ consumed, Consumed parse payload s consumed ∧
    consumed ++ (s.pipe ++ s.buffers.flatten) = message payload
  closed : s.writing = false → s.stopped = true ∨ s.buffers.flatten = []

/-- What is left to be done. -/
def PipeState.left (s : PipeState M E) : ℕ :=
  2 * s.buffers.flatten.length + s.pipe.length + s.writing.toNat + (!s.point.isEnded).toNat

/-- The reader ends with the payload, or at the end of a pipe whose writer was stopped; until then
one of the two can go on. -/
structure Delivers (s : PipeState M E) : Prop where
  ended : ∀ outcome, s.point = .ended outcome → Delivered parse payload s outcome
  goesOn : s.point.isEnded = false → ∃ input s', input ≠ .stop ∧ s.step parse capacity input = .ok s'

end

variable {M E : Type} {parse : List UInt8 → Except E M} {capacity n : ℕ} {payload : List UInt8}
  {s s' : PipeState M E}

theorem exists_of_write (h : s.write capacity n = .ok s') : s.writing = true ∧
    ∃ chunk buffers, chunk ≠ [] ∧ s.buffers.flatten = chunk ++ buffers.flatten ∧
      s' = { s with buffers, pipe := s.pipe ++ chunk } := by
  rw [PipeState.write] at h
  split at h
  · cases h
  · next data buffers hbuffers =>
    split at h
    · next hcond =>
      cases h
      refine ⟨hcond.1, data.take n, data.drop n :: buffers, fun hnil => ?_, ?_, rfl⟩
      · have hlength := congrArg List.length hnil
        rw [List.length_take, List.length_nil] at hlength
        omega
      · rw [← List.flatten_filter_not_isEmpty, hbuffers, List.flatten_cons, List.flatten_cons,
          ← List.append_assoc, List.take_append_drop]
    · cases h

theorem Consumed.length_lt {consumed : List UInt8} (h : Consumed parse payload s consumed)
    (hended : s.point.isEnded = false) : consumed.length < (message payload).length := by
  rw [message, List.length_append, length_toBytes]
  rw [Consumed] at h
  split at h
  · obtain ⟨rfl, hlt⟩ := h
    omega
  · obtain ⟨rfl, hlt, -, rfl⟩ := h
    rw [List.length_append, length_toBytes]
    omega
  · next hpoint =>
    rw [hpoint] at hended
    cases hended

theorem left_goOn_le (s : PipeState M E) : (s.goOn parse).left ≤ s.left := by
  rw [PipeState.goOn]
  split
  · next hpoint =>
    split
    · exact Nat.le_refl _
    · split <;> simp [PipeState.left, hpoint, ReadPoint.isEnded]
  · next hpoint =>
    split
    · exact Nat.le_refl _
    · simp [PipeState.left, hpoint, ReadPoint.isEnded]
  · exact Nat.le_refl _

section

variable (hpayload : payload ≠ []) (hfits : payload.length < 256 ^ pipeMsgPrefixLength)
include hpayload hfits

/-- The first four bytes that are read are the length. -/
theorem fromBytes_eq {result rest : List UInt8} (h : result ++ rest = message payload)
    (hlength : result.length = pipeMsgPrefixLength) :
    result = toBytes pipeMsgPrefixLength payload.length ∧ fromBytes result = payload.length ∧
      fromBytes result ≠ 0 := by
  obtain ⟨rfl, -⟩ := List.append_inj h (hlength.trans (length_toBytes _ _).symm)
  rw [fromBytes_toBytes hfits]
  exact ⟨rfl, rfl, fun hzero => hpayload (List.length_eq_zero_iff.mp hzero)⟩

theorem PipeInv.goOn_length {result : List UInt8} (hpoint : s.point = .length result)
    (hle : result.length ≤ pipeMsgPrefixLength)
    (hstream : result ++ (s.pipe ++ s.buffers.flatten) = message payload)
    (hclosed : s.writing = false → s.stopped = true ∨ s.buffers.flatten = []) :
    PipeInv parse payload (s.goOn parse) := by
  rw [PipeState.goOn, hpoint]
  dsimp only
  split
  · next hshort => exact ⟨⟨result, by rw [Consumed, hpoint]; exact ⟨rfl, hshort⟩, hstream⟩, hclosed⟩
  · next hlong =>
    obtain ⟨hresult, hsize, hne⟩ := fromBytes_eq hpayload hfits hstream (by omega)
    rw [if_neg hne]
    refine ⟨⟨_, ⟨hsize, ?_, rfl, ?_⟩, hstream⟩, hclosed⟩
    · rw [List.length_nil]
      exact Nat.pos_of_ne_zero hne
    · rw [List.append_nil, hresult]

omit hpayload hfits in
theorem PipeInv.goOn_payload {result : List UInt8} (hpoint : s.point = .payload payload.length result)
    (hle : result.length ≤ payload.length) (hsize : s.messageSize = some payload.length)
    (hstream : toBytes pipeMsgPrefixLength payload.length ++ (result ++
      (s.pipe ++ s.buffers.flatten)) = message payload)
    (hclosed : s.writing = false → s.stopped = true ∨ s.buffers.flatten = []) :
    PipeInv parse payload (s.goOn parse) := by
  rw [PipeState.goOn, hpoint]
  dsimp only
  split
  · next hshort =>
    refine ⟨⟨_, ?_, (List.append_assoc ..).trans hstream⟩, hclosed⟩
    rw [Consumed, hpoint]
    exact ⟨rfl, hshort, hsize, rfl⟩
  · next hlong =>
    have hend := (List.append_cancel_left hstream).trans (List.append_nil payload).symm
    obtain ⟨rfl, -⟩ := List.append_inj hend (by omega)
    exact ⟨⟨_, .inl ⟨rfl, hsize⟩, (List.append_assoc ..).trans hstream⟩, hclosed⟩

theorem PipeInv.read (h : PipeInv parse payload s) (hread : s.read parse n = .ok s') :
    PipeInv parse payload s' ∧ s'.left < s.left := by
  obtain ⟨⟨consumed, hconsumed, hstream⟩, hclosed⟩ := h
  have hwhole := hconsumed.length_lt
  rw [PipeState.read] at hread
  split at hread
  · next hcond =>
    obtain ⟨hpos, hwanted, hpipe⟩ := hcond
    cases hread
    obtain ⟨buffers, writing, stopped, pipe, point, messageSize⟩ := s
    dsimp only at hwanted hpipe hstream hclosed ⊢
    have htake : (pipe.take n).length = n := List.length_take_of_le hpipe
    have hrest : pipe.take n ++ (pipe.drop n ++ buffers.flatten) = pipe ++ buffers.flatten := by
      rw [← List.append_assoc, List.take_append_drop]
    refine ⟨?_, Nat.lt_of_le_of_lt (left_goOn_le _) ?_⟩
    · cases point with
      | length result =>
        obtain ⟨rfl, hlt⟩ := hconsumed
        dsimp only [ReadPoint.wanted] at hwanted ⊢
        refine PipeInv.goOn_length hpayload hfits rfl ?_ ?_ hclosed
        · rw [List.length_append, htake]
          omega
        · rw [List.append_assoc, hrest, hstream]
      | payload size result =>
        obtain ⟨rfl, hlt, hsize, rfl⟩ := hconsumed
        dsimp only [ReadPoint.wanted] at hwanted ⊢
        refine PipeInv.goOn_payload rfl ?_ hsize ?_ hclosed
        · rw [List.length_append, htake]
          omega
        · rw [List.append_assoc, hrest, ← List.append_assoc, hstream]
      | ended outcome => exact absurd hwanted (Nat.not_le.mpr hpos)
    · cases point <;> simp [PipeState.left, ReadPoint.wanted, ReadPoint.isEnded] <;> omega
  · split at hread
    · next hcond =>
      obtain ⟨-, hpipe, hwriting, hended⟩ := hcond
      cases hread
      refine ⟨⟨⟨consumed, .inr ⟨rfl, ?_⟩, hstream⟩, hclosed⟩, ?_⟩
      · refine (hclosed hwriting).resolve_right fun hbuffers => ?_
        rw [hpipe, hbuffers, List.append_nil, List.append_nil] at hstream
        exact absurd (congrArg List.length hstream) (Nat.ne_of_lt (hwhole hended))
      · rw [PipeState.left, PipeState.left, hended]
        exact Nat.lt_succ_self _
    · cases hread

theorem PipeInv.step (h : PipeInv parse payload s) {input : PipeInput}
    (hstep : s.step parse capacity input = .ok s') : PipeInv parse payload s' ∧ s'.left < s.left := by
  obtain ⟨⟨consumed, hconsumed, hstream⟩, hclosed⟩ := id h
  cases input with
  | write n =>
    obtain ⟨hwriting, chunk, buffers, hchunk, hbuffers, rfl⟩ := exists_of_write hstep
    have hpos := List.length_pos_iff.mpr hchunk
    refine ⟨⟨⟨consumed, hconsumed, ?_⟩, fun hfalse => ?_⟩, ?_⟩
    · rw [← hstream, hbuffers, List.append_assoc]
    · rw [hwriting] at hfalse
      cases hfalse
    · rw [PipeState.left, PipeState.left, hbuffers]
      dsimp only
      rw [List.length_append, List.length_append]
      omega
  | close =>
    rw [PipeState.step] at hstep
    split at hstep
    · next hcond =>
      cases hstep
      refine ⟨⟨⟨consumed, hconsumed, hstream⟩, fun _ => .inr hcond.2⟩, ?_⟩
      simp [PipeState.left, hcond.1]
    · cases hstep
  | stop =>
    rw [PipeState.step] at hstep
    split at hstep
    · next hwriting =>
      cases hstep
      refine ⟨⟨⟨consumed, ?_, hstream⟩, fun _ => .inl rfl⟩, by simp [PipeState.left, hwriting]⟩
      rw [Consumed] at hconsumed ⊢
      cases hpoint : s.point with
      | ended outcome =>
        rw [hpoint] at hconsumed
        exact hconsumed.imp_right fun h => ⟨h.1, rfl⟩
      | _ => rwa [hpoint] at hconsumed
    · cases hstep
  | read n => exact h.read hpayload hfits hstep

end

theorem PipeInv.delivers (hcapacity : 0 < capacity) (h : PipeInv parse payload s) :
    Delivers parse capacity payload s where
  ended outcome hpoint := by
    obtain ⟨consumed, hconsumed, -⟩ := h.stream
    rwa [Consumed, hpoint] at hconsumed
  goesOn hended := by
    by_cases hpipe : s.pipe = []
    · by_cases hwriting : s.writing = true
      · by_cases hbuffers : s.buffers.flatten = []
        · exact ⟨.close, _, by simp, if_pos ⟨hwriting, hbuffers⟩⟩
        · cases hrest : s.buffers.filter (!·.isEmpty) with
          | nil =>
            rw [← List.flatten_filter_not_isEmpty, hrest] at hbuffers
            exact absurd rfl hbuffers
          | cons data buffers =>
            have hdata := (List.mem_filter.mp (hrest ▸ List.mem_cons_self : data ∈ _)).2
            have hpos : 1 ≤ data.length := List.length_pos_iff.mpr (by simpa using hdata)
            refine ⟨.write 1, { s with buffers := data.drop 1 :: buffers, pipe := s.pipe ++ data.take 1 },
              by simp, ?_⟩
            rw [PipeState.step, PipeState.write, hrest]
            exact if_pos ⟨hwriting, Nat.one_pos, hpos, by rw [hpipe]; exact hcapacity⟩
      · refine ⟨.read 0, { s with point := .ended (.error .endOfFile) }, by simp, ?_⟩
        rw [PipeState.step, PipeState.read, if_neg (fun h => absurd h.1 (Nat.lt_irrefl 0))]
        exact if_pos ⟨rfl, hpipe, by simpa using hwriting, hended⟩
    · have hwanted : 1 ≤ s.point.wanted.1 := by
        obtain ⟨consumed, hconsumed, -⟩ := h.stream
        rw [Consumed] at hconsumed
        cases hpoint : s.point with
        | length result =>
          rw [hpoint] at hconsumed
          exact Nat.sub_pos_of_lt hconsumed.2
        | payload size result =>
          rw [hpoint] at hconsumed
          exact Nat.sub_pos_of_lt hconsumed.2.1
        | ended outcome =>
          rw [hpoint] at hended
          cases hended
      exact ⟨.read 1, _, by simp, if_pos ⟨Nat.one_pos, hwanted, List.length_pos_iff.mpr hpipe⟩⟩

/-- **In every run** the reader ends with the payload, or at the end of the pipe of a task that was
stopped; it does not wait for ever, since each step leaves less to be done. -/
theorem delivers_of_fits (parse : List UInt8 → Except E M) (payload : List UInt8)
    (hpayload : payload ≠ []) (hfits : payload.length < 256 ^ pipeMsgPrefixLength)
    (hcapacity : 0 < capacity) (inputs : List PipeInput) :
    Along (fun s input => s.step parse capacity input)
      (fun s _ s' => Delivers parse capacity payload s' ∧ s'.left < s.left) (start payload) inputs := by
  refine Along.of_step (I := PipeInv parse payload) (V := fun _ _ _ => True)
    (fun s input s' hs hstep _ => ?_) ⟨⟨[], ⟨rfl, by decide⟩, ?_⟩, fun h => by cases h⟩
    (Along.always (fun _ _ _ => trivial) inputs _)
  · obtain ⟨hinv, hleft⟩ := hs.step hpayload hfits hstep
    exact ⟨⟨hinv.delivers hcapacity, hleft⟩, hinv⟩
  · simp [start, message]

theorem delivers_of_fits_hi : Along (fun s input => s.step (E := Unit) .ok 65536 input)
    (fun s _ s' => Delivers .ok 65536 [104, 105] s' ∧ s'.left < s.left) (start [104, 105])
    [.write 3, .read 2, .write 1, .write 1, .read 2, .write 1, .close, .read 2] :=
  delivers_of_fits .ok [104, 105] (by decide) (by decide) (by decide) _

end N8n.Python
