import Mizu.Ipc.Rehydrate

/-!
# Frames

A message is sent as its length, four bytes in little-endian order, and its bytes. A reader of a stream
blocks until a frame is complete or the stream ends; a stream ends when the peer closes it or in an error
of the system.

* `readFrame_writeFrame`: what is written is read back.
* `readFrames_cut`: of a stream that breaks off the whole frames are read, in order.
* `clean_end_iff`: when the end that is reported as a closed stream is the end of a frame.
-/

namespace Mizu

/-- The failures of a channel, with the texts of the source. -/
inductive IpcError where
  | transport (message : String)
  | frameTooLarge (len limit : Nat)
  | validation (message : String)
  | workerDied (code : Option Int)
  | protocol (message : String)
  | sandbox (message : String)
  deriving DecidableEq, Repr

/-- The derived `Debug` text of the exit code. -/
def IpcError.debugCode : Option Int → String
  | none => "None"
  | some code => "Some(" ++ toString code ++ ")"

def IpcError.display : IpcError → String
  | transport message => "IPC transport error: " ++ message
  | frameTooLarge len limit =>
    "IPC frame too large: " ++ toString len ++ " bytes (limit " ++ toString limit ++ ")"
  | validation message => "IPC archive validation failed: " ++ message
  | workerDied code => "worker process terminated unexpectedly (exit code: " ++ debugCode code ++ ")"
  | protocol message => "IPC protocol violation: " ++ message
  | sandbox message => "IPC sandbox initialization failed: " ++ message

/-- `MAX_FRAME_BYTES`. -/
def maxFrameBytes : Nat := 64 * 1024 * 1024

/-- How a stream ends. -/
inductive StreamEnd where
  /-- The peer has closed it. -/
  | eof
  | failed (message : String)
  deriving DecidableEq, Repr

/-- What `read_exact` reports of a stream that ends too early. -/
def StreamEnd.error : StreamEnd → IpcError
  | eof => .workerDied none
  | failed message => .transport message

/-- `u32::to_le_bytes`. -/
def u32ToLe (n : Nat) : List UInt8 :=
  [UInt8.ofNat n, UInt8.ofNat (n / 256), UInt8.ofNat (n / 65536), UInt8.ofNat (n / 16777216)]

/-- `u32::from_le_bytes`. -/
def u32FromLe (bytes : List UInt8) : Nat := bytes.foldr (fun b n => b.toNat + 256 * n) 0

/-- `write_frame`: the bytes it puts into the stream. -/
def writeFrame (body : List UInt8) : Except IpcError (List UInt8) :=
  if body.length ≤ maxFrameBytes then .ok (u32ToLe body.length ++ body)
  else .error (.frameTooLarge (body.length % 2 ^ 32) maxFrameBytes)

/-- `read_frame` on what is left of a stream: the body of the next frame and what is left after it. -/
def readFrame (bytes : List UInt8) (fin : StreamEnd) : Except IpcError (List UInt8 × List UInt8) :=
  if bytes.length < 4 then .error fin.error
  else
    let len := u32FromLe (bytes.take 4)
    if len > maxFrameBytes then .error (.frameTooLarge len maxFrameBytes)
    else
      let rest := bytes.drop 4
      if rest.length < len then .error fin.error else .ok (rest.take len, rest.drop len)

/-- The reader cannot tell yet what the next frame is. -/
def needsMore (bytes : List UInt8) : Bool :=
  bytes.length < 4 ||
    u32FromLe (bytes.take 4) ≤ maxFrameBytes && (bytes.drop 4).length < u32FromLe (bytes.take 4)

variable {bytes : List UInt8} {code : Option Int}

section Frames

theorem u32FromLe_toLe {n : Nat} (h : n < 2 ^ 32) : u32FromLe (u32ToLe n) = n := by
  simp only [u32ToLe, u32FromLe, List.foldr_cons, List.foldr_nil, UInt8.toNat_ofNat']
  omega

/-- What is written is read back, whatever follows it. -/
theorem readFrame_writeFrame {body bytes : List UInt8} (h : writeFrame body = .ok bytes)
    (rest : List UInt8) (fin : StreamEnd) : readFrame (bytes ++ rest) fin = .ok (body, rest) := by
  unfold writeFrame at h
  split at h
  · rename_i hlen
    cases h
    have hmax : maxFrameBytes < 2 ^ 32 := by decide
    have hhead : ((u32ToLe body.length ++ body) ++ rest).take 4 = u32ToLe body.length := rfl
    have htail : ((u32ToLe body.length ++ body) ++ rest).drop 4 = body ++ rest := rfl
    have hlong : ¬((u32ToLe body.length ++ body) ++ rest).length < 4 := by
      simp only [List.length_append, u32ToLe, List.length_cons, List.length_nil]
      omega
    unfold readFrame
    rw [if_neg hlong, hhead, htail, u32FromLe_toLe (by omega)]
    dsimp only
    rw [if_neg (by omega), if_neg (by simp), List.take_left, List.drop_left]
  · cases h

/-- How a stream ends matters only to a frame that is not complete. -/
theorem readFrame_eq (bytes : List UInt8) (fin : StreamEnd) :
    readFrame bytes fin = if needsMore bytes then .error fin.error else readFrame bytes .eof := by
  unfold readFrame needsMore
  generalize u32FromLe (bytes.take 4) = len
  generalize bytes.drop 4 = rest
  by_cases hhead : bytes.length < 4
  · simp only [hhead, if_true, decide_true, Bool.true_or]
  · by_cases hlong : len > maxFrameBytes
    · have hle : ¬len ≤ maxFrameBytes := by omega
      simp only [hhead, hlong, hle, if_true, if_false, decide_false, Bool.false_and, Bool.or_false,
        Bool.false_eq_true]
    · have hle : len ≤ maxFrameBytes := by omega
      by_cases hbody : rest.length < len
      · simp only [hhead, hlong, hle, hbody, if_true, if_false, decide_true, Bool.true_and, Bool.or_true]
      · simp only [hhead, hlong, hle, hbody, if_false, decide_false, Bool.and_false, Bool.or_false,
          Bool.false_eq_true]

theorem readFrame_complete (h : needsMore bytes = false) (fin : StreamEnd)
    (code : Option Int) : readFrame bytes fin ≠ .error (.workerDied code) := by
  intro hdied
  unfold readFrame at hdied
  unfold needsMore at h
  simp only [Bool.or_eq_false_iff, decide_eq_false_iff_not, Bool.and_eq_false_iff] at h
  rw [if_neg h.1] at hdied
  dsimp only at hdied
  split at hdied
  · cases hdied
  · grind

/-- The end of the stream is reported as the worker's only if the peer closed it before a whole frame. -/
theorem readFrame_workerDied {fin : StreamEnd} :
    readFrame bytes fin = .error (.workerDied code) ↔ code = none ∧ needsMore bytes = true ∧ fin = .eof := by
  rw [readFrame_eq]
  cases hmore : needsMore bytes with
  | false =>
    rw [if_neg (by simp)]
    exact iff_of_false (readFrame_complete hmore .eof code) fun h => absurd h.2.1 (by simp)
  | true =>
    rw [if_pos rfl]
    cases fin with
    | eof =>
      constructor
      · rintro h
        cases h
        exact ⟨rfl, rfl, rfl⟩
      · rintro ⟨rfl, -⟩
        rfl
    | failed message =>
      constructor
      · intro h
        cases h
      · rintro ⟨-, -, h⟩
        cases h

/-- A stream is closed inside a frame. -/
def BrokenOff (bytes : List UInt8) (fin : StreamEnd) : Prop :=
  bytes ≠ [] ∧ needsMore bytes = true ∧ fin = .eof

/-- The end of a stream is reported as a closed stream only at the end of a frame, unless the stream is closed
inside one. -/
theorem clean_end_iff (bytes : List UInt8) (fin : StreamEnd) :
    (∀ code, readFrame bytes fin = .error (.workerDied code) → bytes = []) ↔ ¬BrokenOff bytes fin := by
  constructor
  · rintro hclean ⟨hne, hmore, hfin⟩
    exact hne (hclean none (readFrame_workerDied.mpr ⟨rfl, hmore, hfin⟩))
  · intro hwhole code hdied
    obtain ⟨-, hmore, hfin⟩ := readFrame_workerDied.mp hdied
    by_contra hne
    exact hwhole ⟨hne, hmore, hfin⟩

end Frames

/-! ## Streams -/

section Streams

/-- The frames that a reader takes from a stream until it fails, and the failure; a frame has at least four bytes. -/
def readFrames (fin : StreamEnd) (bytes : List UInt8) : List (List UInt8) × Option IpcError := go (bytes.length + 1) bytes
where
  go : Nat → List UInt8 → List (List UInt8) × Option IpcError
    | 0, _ => ([], none)
    | fuel + 1, bytes =>
      match readFrame bytes fin with
      | .error e => ([], some e)
      | .ok (body, rest) => (body :: (go fuel rest).1, (go fuel rest).2)

/-- How many of the frames lie whole before a place in their stream. -/
def wholeFrames : List (List UInt8) → Nat → Nat
  | [], _ => 0
  | frame :: frames, cut => if frame.length ≤ cut then wholeFrames frames (cut - frame.length) + 1 else 0

/-- A frame that breaks off is not read. -/
theorem readFrame_take {body frame : List UInt8} (h : writeFrame body = .ok frame) {cut : Nat} (hcut : cut < frame.length)
    (fin : StreamEnd) : readFrame (frame.take cut) fin = .error fin.error := by
  unfold writeFrame at h
  split at h
  · rename_i hlen
    cases h
    have hhead : (u32ToLe body.length).length = 4 := rfl
    have hmax : maxFrameBytes < 2 ^ 32 := by decide
    unfold readFrame
    by_cases hshort : cut < 4
    · rw [if_pos (by rw [List.length_take]; omega)]
    · rw [List.take_append, hhead, List.take_of_length_le (by omega), if_neg (by rw [List.length_append]; omega),
        List.take_left' hhead, List.drop_left' hhead, u32FromLe_toLe (by omega)]
      dsimp only
      rw [List.length_append] at hcut
      rw [if_neg (by omega), if_pos (by rw [List.length_take]; omega)]
  · cases h

/-- A stream of frames that breaks off gives the frames that are whole, in order, and the error of its end. -/
theorem readFrames_cut {bodies frames : List (List UInt8)} (h : bodies.mapM writeFrame = .ok frames) (fin : StreamEnd)
    (cut : Nat) : readFrames fin (frames.flatten.take cut) = (bodies.take (wholeFrames frames cut), some fin.error) := by
  have key (fuel : Nat) (hfuel : (frames.flatten.take cut).length < fuel) :
      readFrames.go fin fuel (frames.flatten.take cut) = (bodies.take (wholeFrames frames cut), some fin.error) := by
    induction bodies generalizing frames cut fuel with
    | nil =>
      obtain ⟨fuel, rfl⟩ := Nat.exists_eq_succ_of_ne_zero (Nat.ne_zero_of_lt hfuel)
      obtain rfl : [] = frames := Except.ok.inj h
      simp [readFrames.go, readFrame]
    | cons body bodies ih =>
      obtain ⟨fuel, rfl⟩ := Nat.exists_eq_succ_of_ne_zero (Nat.ne_zero_of_lt hfuel)
      rw [List.mapM_cons] at h
      obtain ⟨frame, hframe, h⟩ := Exec.except_bind_ok_iff.mp h
      obtain ⟨rest, hrest, h⟩ := Exec.except_bind_ok_iff.mp h
      obtain rfl : frame :: rest = frames := Except.ok.inj h
      rw [wholeFrames]
      by_cases hcut : frame.length ≤ cut
      · have htake : (frame :: rest).flatten.take cut = frame ++ rest.flatten.take (cut - frame.length) := by
          rw [List.flatten_cons, List.take_append, List.take_of_length_le hcut]
        rw [htake, List.length_append] at hfuel
        have hpos : 0 < frame.length := by
          rw [List.length_pos_iff]
          rintro rfl
          unfold writeFrame at hframe
          split at hframe <;> cases hframe
        rw [htake, if_pos hcut, readFrames.go, readFrame_writeFrame hframe, List.take_succ_cons]
        dsimp only
        rw [ih hrest _ fuel (by omega)]
      · rw [if_neg hcut, readFrames.go, List.flatten_cons, List.take_append_of_le_length (by omega),
          readFrame_take hframe (by omega)]
        rfl
  exact key _ (Nat.lt_succ_self _)

/-- The second of two frames breaks off. -/
theorem readFrames_cut_two :
    readFrames .eof [1, 0, 0, 0, 7, 2, 0, 0, 0, 8] = ([[7]], some (.workerDied none)) :=
  readFrames_cut (show [[7], [8, 9]].mapM writeFrame = .ok [[1, 0, 0, 0, 7], [2, 0, 0, 0, 8, 9]] from rfl) .eof 10

end Streams

/-! ## Messages -/

section Receive

-- Validates the bytes of a frame and reads the message.
variable (decode : List UInt8 → Except String WireWorkerEnvelope)

/-- `IpcReceiver::recv` on what is left of a stream. -/
def recv (bytes : List UInt8) (fin : StreamEnd) : Except IpcError (WireWorkerEnvelope × List UInt8) :=
  match readFrame bytes fin with
  | .error e => .error e
  | .ok (body, rest) =>
    match decode body with
    | .error message => .error (.validation message)
    | .ok envelope => .ok (envelope, rest)

/-- `recv` on a stream that may still be open: `none` while it blocks. -/
def tryRecv (bytes : List UInt8) : Option StreamEnd → Option (Except IpcError (WireWorkerEnvelope × List UInt8))
  | some fin => some (recv decode bytes fin)
  | none => if needsMore bytes then none else some (recv decode bytes .eof)

theorem recv_workerDied {fin : StreamEnd}
    (h : recv decode bytes fin = .error (.workerDied code)) : needsMore bytes = true ∧ fin = .eof := by
  unfold recv at h
  split at h
  · rename_i e he
    cases h
    exact (readFrame_workerDied.mp he).2
  · split at h
    · cases h
    · cases h

/-- A reader takes a stream for closed only if it is, and no whole frame is left of it. -/
theorem tryRecv_workerDied {fin : Option StreamEnd}
    (h : tryRecv decode bytes fin = some (.error (.workerDied code))) :
    needsMore bytes = true ∧ fin = some .eof := by
  cases fin with
  | some f =>
    obtain ⟨hmore, rfl⟩ := recv_workerDied decode (Option.some.inj h)
    exact ⟨hmore, rfl⟩
  | none => grind [tryRecv, recv_workerDied]

end Receive

end Mizu
