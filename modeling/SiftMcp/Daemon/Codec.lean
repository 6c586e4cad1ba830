import SiftMcp.Daemon.Protocol
import SiftMcp.Lib.ByteStream

/-!
# The codec

An envelope travels as a frame: the length of its payload in four bytes, and the payload. There are
two decoders. `decode_one_recovering` reads from any reader, and `read_envelope` is what the daemon
reads the requests of a connection with.

The main result is `decoders_resynchronise`: behind a frame that is encoded, refused or too large,
both decoders go on with the next one.
-/

namespace SiftMcp

/-- Requests above this are rejected without being buffered. -/
def maxRequestBytes : Nat := 1048576

/-- `bincode::serialize` and `bincode::deserialize` at a type, with the texts they fail with. -/
structure Bincode (τ : Type) where
  serialize : τ → Except String (List UInt8)
  deserialize : List UInt8 → Except String τ
  roundTrip : ∀ value payload, serialize value = .ok payload → deserialize payload = .ok value

/-- The text of an error of `std::io::Read::read_exact`. -/
def displayRead : ReadFailure → String
  | .eof => "failed to fill whole buffer"
  | .other text => text

/-- The same of `tokio::io::AsyncReadExt::read_exact`. -/
def displayAsyncRead : ReadFailure → String
  | .eof => "early eof"
  | .other text => text

variable {τ π : Type}

/-! ## Encoding -/

/-- Encode `value` as a little-endian u32 length prefix followed by bincode bytes. -/
def encode (b : Bincode τ) (value : τ) : Except DaemonError (List UInt8) := do
  let payload ← (b.serialize value).mapError fun e => .malformed s!"encode: {e}"
  let len := payload.length
  if len > maxRequestBytes then throw (.requestTooLarge len maxRequestBytes)
  return u32ToLeBytes len ++ payload

/-! ## Decoding -/

/-- Skip a too-large frame's declared body. -/
def skipOversizedBody (bytes : Nat) (s : ByteStream) : Except DaemonError Unit × ByteStream :=
  let (result, s) := s.discard 8191 bytes
  (result.mapError fun e => .malformed s!"skip oversized: {displayRead e}", s)

def decodeOneRecovering (b : Bincode τ) (s : ByteStream) : Except DaemonError τ × ByteStream :=
  match s.readExact 4 with
  | (.error .eof, s) => (.error (.malformed "truncated length prefix"), s)
  | (.error e, s) => (.error (.malformed s!"read length: {displayRead e}"), s)
  | (.ok lenBuf, s) =>
    let len := u32FromLeBytes lenBuf
    if len > maxRequestBytes then
      match skipOversizedBody len s with
      | (.error e, s) => (.error e, s)
      | (.ok (), s) => (.error (.requestTooLarge len maxRequestBytes), s)
    else
      match s.readExact len with
      | (.error .eof, s) => (.error (.malformed "truncated frame body"), s)
      | (.error e, s) => (.error (.malformed s!"read body: {displayRead e}"), s)
      | (.ok payload, s) =>
        ((b.deserialize payload).mapError fun e => .malformed s!"decode: {e}", s)

def readEnvelope (b : Bincode (Envelope π)) (s : ByteStream) :
    Except DaemonError (Envelope π) × ByteStream :=
  match s.readExact 4 with
  | (.error .eof, s) => (.error (.malformed "truncated length prefix"), s)
  | (.error e, s) => (.error (.malformed s!"read length: {displayAsyncRead e}"), s)
  | (.ok lenBuf, s) =>
    let len := u32FromLeBytes lenBuf
    if len > maxRequestBytes then
      match s.discard 8191 len with
      | (.error e, s) => (.error (.malformed s!"drain oversized: {displayAsyncRead e}"), s)
      | (.ok (), s) => (.error (.requestTooLarge len maxRequestBytes), s)
    else
      match s.readExact len with
      | (.error e, s) => (.error (.malformed s!"truncated frame body: {displayAsyncRead e}"), s)
      | (.ok payload, s) =>
        ((b.deserialize payload).mapError fun e => .malformed s!"decode: {e}", s)

/-- The results of `n` calls of a decoder, each with the reader after it. -/
def calls (decode : ByteStream → Except DaemonError τ × ByteStream) :
    Nat → ByteStream → List (Except DaemonError τ × ByteStream)
  | 0, _ => []
  | n + 1, s => decode s :: calls decode n (decode s).2

/-! ## Frames -/

/-- What a peer writes. An oversized frame comes with the whole body that it declares. -/
inductive WireFrame (b : Bincode τ)
  | envelope (value : τ) (payload : List UInt8) (within : payload.length ≤ maxRequestBytes)
    (decodes : b.deserialize payload = .ok value)
  | oversized (body : List UInt8) (exceeds : maxRequestBytes < body.length)
    (declared : body.length < 4294967296)
  | undecodable (payload : List UInt8) (e : String) (within : payload.length ≤ maxRequestBytes)
    (fails : b.deserialize payload = .error e)

namespace WireFrame

variable {b : Bincode τ}

def body : WireFrame b → List UInt8
  | envelope _ payload .. | oversized payload .. | undecodable payload .. => payload

def bytes (f : WireFrame b) : List UInt8 := u32ToLeBytes f.body.length ++ f.body

/-- What a decoder is to return for it. -/
def outcome : WireFrame b → Except DaemonError τ
  | envelope value .. => .ok value
  | oversized body .. => .error (.requestTooLarge body.length maxRequestBytes)
  | undecodable _ e .. => .error (.malformed s!"decode: {e}")

/-- What comes of the calls of a decoder, one for each frame, on frames with other bytes behind
them. -/
def outcomes (rest : List UInt8) (behind : ReadFailure) :
    List (WireFrame b) → List (Except DaemonError τ × ByteStream)
  | [] => []
  | f :: fs => (f.outcome, ⟨fs.flatMap bytes ++ rest, behind⟩) :: outcomes rest behind fs

theorem declared_eq (f : WireFrame b) :
    u32FromLeBytes (u32ToLeBytes f.body.length) = f.body.length := by
  apply u32FromLeBytes_toLeBytes
  cases f with
  | envelope value payload within decodes => exact Nat.lt_of_le_of_lt within (by decide)
  | oversized body exceeds declared => exact declared
  | undecodable payload e within fails => exact Nat.lt_of_le_of_lt within (by decide)

/-- The outcome is decided by the length of the body, and within the limit by `bincode`. -/
theorem outcome_cases (f : WireFrame b) :
    maxRequestBytes < f.body.length ∧
        f.outcome = .error (.requestTooLarge f.body.length maxRequestBytes) ∨
      f.body.length ≤ maxRequestBytes ∧
        f.outcome = (b.deserialize f.body).mapError fun e => .malformed s!"decode: {e}" := by
  cases f with
  | envelope value payload within decodes =>
    refine .inr ⟨within, ?_⟩
    rw [body, decodes]
    rfl
  | oversized body exceeds declared => exact .inl ⟨exceeds, rfl⟩
  | undecodable payload e within fails =>
    refine .inr ⟨within, ?_⟩
    rw [body, fails]
    rfl

end WireFrame

section
variable {b : Bincode τ} {rest : List UInt8} {behind : ReadFailure}

open ByteStream

theorem skipOversizedBody_append {body : List UInt8} :
    skipOversizedBody body.length ⟨body ++ rest, behind⟩ = (.ok (), ⟨rest, behind⟩) := by
  rw [skipOversizedBody, discard_append]
  rfl

/-- The length is read, and what follows is the body. -/
theorem readExact_frame (f : WireFrame b) :
    readExact 4 ⟨f.bytes ++ rest, behind⟩ =
      (.ok (u32ToLeBytes f.body.length), ⟨f.body ++ rest, behind⟩) := by
  rw [WireFrame.bytes, List.append_assoc, ← u32ToLeBytes_length f.body.length]
  exact readExact_append

theorem decodeOneRecovering_frame (f : WireFrame b) :
    decodeOneRecovering b ⟨f.bytes ++ rest, behind⟩ = (f.outcome, ⟨rest, behind⟩) := by
  rw [decodeOneRecovering, readExact_frame]
  simp only [f.declared_eq]
  rcases f.outcome_cases with ⟨hlen, hout⟩ | ⟨hlen, hout⟩
  · rw [if_pos hlen, skipOversizedBody_append, hout]
  · rw [if_neg (Nat.not_lt.mpr hlen), readExact_append, hout]

end

section
variable {b : Bincode (Envelope π)} {rest : List UInt8} {behind : ReadFailure} {s : ByteStream}

open ByteStream

theorem readEnvelope_frame (f : WireFrame b) :
    readEnvelope b ⟨f.bytes ++ rest, behind⟩ = (f.outcome, ⟨rest, behind⟩) := by
  rw [readEnvelope, readExact_frame]
  simp only [f.declared_eq]
  rcases f.outcome_cases with ⟨hlen, hout⟩ | ⟨hlen, hout⟩
  · rw [if_pos hlen, discard_append, hout]
  · rw [if_neg (Nat.not_lt.mpr hlen), readExact_append, hout]

/-- Two results are alike if they differ in the text of a `Malformed` at most. -/
inductive Alike : Except DaemonError τ → Except DaemonError τ → Prop
  | refl (r : Except DaemonError τ) : Alike r r
  | malformed (detail detail' : String) :
    Alike (.error (.malformed detail)) (.error (.malformed detail'))

/-- Whatever the bytes, both decoders use up the same. -/
theorem decoders_alike : Alike (decodeOneRecovering b s).1 (readEnvelope b s).1 ∧
    (decodeOneRecovering b s).2 = (readEnvelope b s).2 := by
  rw [decodeOneRecovering, readEnvelope]
  rcases s.readExact 4 with ⟨_ | lenBuf, s⟩
  · rename_i e
    cases e with
    | eof => exact ⟨.refl _, rfl⟩
    | other text => exact ⟨.malformed .., rfl⟩
  · simp only
    split
    · rw [skipOversizedBody]
      rcases s.discard 8191 (u32FromLeBytes lenBuf) with ⟨_ | _, s⟩
      · exact ⟨.malformed .., rfl⟩
      · exact ⟨.refl _, rfl⟩
    · rcases s.readExact (u32FromLeBytes lenBuf) with ⟨_ | payload, s⟩
      · rename_i e
        cases e with
        | eof => exact ⟨.malformed .., rfl⟩
        | other text => exact ⟨.malformed .., rfl⟩
      · exact ⟨.refl _, rfl⟩

/-! ## Calls one after the other -/

/-- A decoder that does its part at every frame does it at every sequence of frames. -/
theorem calls_frames {b : Bincode τ} {decode : ByteStream → Except DaemonError τ × ByteStream}
    (hdecode : ∀ (f : WireFrame b) rest, decode ⟨f.bytes ++ rest, behind⟩ =
      (f.outcome, ⟨rest, behind⟩))
    (fs : List (WireFrame b)) :
    calls decode fs.length ⟨fs.flatMap WireFrame.bytes ++ rest, behind⟩ =
      WireFrame.outcomes rest behind fs := by
  induction fs with
  | nil => rfl
  | cons f fs ih =>
    rw [List.length_cons, calls, List.flatMap_cons, List.append_assoc, hdecode, ih,
      WireFrame.outcomes]

theorem calls_alike (n : Nat) : List.Forall₂ (fun p q => Alike p.1 q.1 ∧ p.2 = q.2)
    (calls (decodeOneRecovering b) n s) (calls (readEnvelope b) n s) := by
  induction n generalizing s with
  | zero => exact .nil
  | succ n ih =>
    have halike := @decoders_alike π b s
    rw [calls, calls]
    refine .cons halike ?_
    rw [halike.2]
    exact ih

/-- What `encode` returns is a frame of the envelope. -/
theorem encode_frame {b : Bincode τ} {value : τ} {payload : List UInt8}
    (hserialize : b.serialize value = .ok payload) (within : payload.length ≤ maxRequestBytes) :
    encode b value =
      .ok (@WireFrame.envelope τ b value payload within
        (b.roundTrip value payload hserialize)).bytes := by
  rw [encode, hserialize]
  show (if payload.length > maxRequestBytes then _ else _) = _
  rw [if_neg (Nat.not_lt.mpr within)]
  rfl

end

/-- On frames with any bytes behind them, a call of `decode_one_recovering` for each frame returns
what belongs to the frame and stops at the next, and so does `read_envelope`. Envelopes within the
limit come back from what `encode` makes of them. And on any bytes at all, call by call the two
decoders return the same up to the text of a `Malformed`, and stop at the same byte. -/
theorem decoders_resynchronise (b : Bincode (Envelope π)) :
    (∀ (fs : List (WireFrame b)) rest behind,
      calls (decodeOneRecovering b) fs.length ⟨fs.flatMap WireFrame.bytes ++ rest, behind⟩ =
          WireFrame.outcomes rest behind fs ∧
        calls (readEnvelope b) fs.length ⟨fs.flatMap WireFrame.bytes ++ rest, behind⟩ =
          WireFrame.outcomes rest behind fs) ∧
    (∀ value payload, b.serialize value = .ok payload → payload.length ≤ maxRequestBytes →
      ∃ bytes, encode b value = .ok bytes ∧ ∀ rest behind,
        decodeOneRecovering b ⟨bytes ++ rest, behind⟩ = (.ok value, ⟨rest, behind⟩)) ∧
    ∀ n s, List.Forall₂ (fun p q => Alike p.1 q.1 ∧ p.2 = q.2)
      (calls (decodeOneRecovering b) n s) (calls (readEnvelope b) n s) := by
  refine ⟨fun fs rest behind => ⟨?_, ?_⟩, fun value payload hserialize within => ?_, fun n s => ?_⟩
  · exact calls_frames (fun f rest => decodeOneRecovering_frame f) fs
  · exact calls_frames (fun f rest => readEnvelope_frame f) fs
  · exact ⟨_, encode_frame hserialize within, fun rest behind => decodeOneRecovering_frame _⟩
  · exact calls_alike n

/-- What `bincode` makes of a request for the status with the id 7; no other envelope is written. -/
def sampleBincode : Bincode (Envelope Request) where
  serialize value :=
    if value = ⟨7, .status⟩ then .ok [7, 0, 0, 0, 0, 0, 0, 0, 5, 0, 0, 0] else .error "not sampled"
  deserialize payload :=
    if payload = [7, 0, 0, 0, 0, 0, 0, 0, 5, 0, 0, 0] then .ok ⟨7, .status⟩
    else .error "io error: unexpected end of file"
  roundTrip value payload h := by
    split at h
    · rename_i hvalue
      obtain rfl := Except.ok.inj h
      rw [hvalue, if_pos rfl]
    · cases h

-- A payload that does not decode, then the request, then the first byte of a length.
example : calls (readEnvelope sampleBincode) 3
    ⟨[1, 0, 0, 0, 9, 12, 0, 0, 0, 7, 0, 0, 0, 0, 0, 0, 0, 5, 0, 0, 0, 4], .eof⟩ =
      [(.error (.malformed "decode: io error: unexpected end of file"),
          ⟨[12, 0, 0, 0, 7, 0, 0, 0, 0, 0, 0, 0, 5, 0, 0, 0, 4], .eof⟩),
        (.ok ⟨7, .status⟩, ⟨[4], .eof⟩),
        (.error (.malformed "truncated length prefix"), ⟨[], .eof⟩)] := by
  decide

end SiftMcp
