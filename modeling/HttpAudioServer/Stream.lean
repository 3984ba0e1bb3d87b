import HttpAudioServer.Encoder
import HttpAudioServer.Json
import HttpAudioServer.Library.Blocks
import HttpAudioServer.Library.Run

/-! The stream class: a playlist of decoders and one encoder. Sizes are natural numbers;
the `size_t` of the code does not wrap below 2^61 samples. -/
namespace HttpAudioServer

structure Exn where
  what : String
deriving DecidableEq, Repr

/-- What the outside answers while a call lasts: the output of the ffmpeg process for a
file and an offset, and what ffprobe yields for a file. Either can throw. -/
structure Media where
  decoder : Bytes → Rat → Except Exn Output
  metadata : Bytes → Except Exn Metadata

structure Record where
  start : Rat
  filename : Bytes
  metadata : Metadata
deriving DecidableEq, Repr

def Record.toJson (r : Record) : Json :=
  .ofFields [
    (str "start", .float r.start),
    (str "filename", .string r.filename),
    (str "meta", r.metadata.toJson)]

theorem Record.toJson_sorted (r : Record) :
    r.toJson = .object [
      (str "filename", .string r.filename),
      (str "meta", r.metadata.toJson),
      (str "start", .float r.start)] := by
  rfl

/-- `record` is not in the code: it is the announcement made for this entry. -/
structure Entry where
  filename : Bytes
  offs : Rat
  dec : Option Decoder := none
  record : Option Record := none

/-- `removed` is not in the code: the entries popped off the playlist so far. -/
structure Stream (c : Codec) where
  decoders : List Entry := []
  encoder : EncoderImpl c
  nSamples : Nat := 0
  buf : Bytes := []
  bitrate : Nat
  removed : List Entry := []

/-- The floats in a buffer of bytes, as a cast of the pointer finds them. -/
def floatsOf (bytes : Bytes) : List FloatBits :=
  (Blocks.blocks 4 bytes).map fun word => UInt32.ofNat (Memory.leNat word)

/-- A segment of the response: name, size and payload. The size is a `uint32_t`. -/
def segment (name payload : Bytes) : Bytes :=
  name ++ Memory.leBytes payload.length ++ payload

namespace Stream

variable {c : Codec}

def create (c : Codec) (bitrate : Nat) : Stream c where
  encoder := EncoderImpl.create c 48000 2
  bitrate := bitrate

def append (s : Stream c) (filename : Bytes) (offs : Rat := 0) : Stream c :=
  { s with decoders := s.decoders ++ [{ filename := filename, offs := offs }] }

/-- The local variables of `advance`. -/
structure Advance (c : Codec) where
  stream : Stream c
  nBytes : Nat
  metadata : List Record := []
  osBufData : Bytes := []

def Advance.start (samples : Nat) (s : Stream c) : Advance c where
  stream := s
  nBytes := samples * 2 * 4

/-- Lazily create the decoder at the front. It is stored before its metadata is known. -/
def openFront (media : Media) (l : Advance c) : Imperative.Outcome Exn (Advance c) :=
  match l.stream.decoders with
  | [] => .done l
  | entry :: later =>
    match entry.dec with
    | some _ => .done l
    | none =>
      match media.decoder entry.filename entry.offs with
      | .error e => .thrown e l
      | .ok output =>
        let entry := { entry with dec := some (Decoder.start output) }
        let l := { l with stream := { l.stream with decoders := entry :: later } }
        match media.metadata entry.filename with
        | .error e => .thrown e l
        | .ok metadata =>
          let record : Record :=
            { start := (l.stream.nSamples : Rat) / 48000
              filename := entry.filename
              metadata := metadata }
          .done { l with
            stream := { l.stream with decoders := { entry with record := some record } :: later }
            metadata := l.metadata ++ [record] }

/-- Remove the current decoder if it is at the end of its file. The buffer is compared with
what `nBytes` has become in this round. -/
def removeFront (l : Advance c) : Advance c :=
  if l.stream.buf.length < l.nBytes then
    { l with stream := { l.stream with
        decoders := l.stream.decoders.tail
        removed := l.stream.removed ++ l.stream.decoders.head?.toList
        buf := [] } }
  else { l with stream := { l.stream with buf := [] } }

def readFront (l : Advance c) : Imperative.Outcome Exn (Advance c) :=
  match l.stream.decoders with
  | [] => .done l
  | entry :: later =>
    match entry.dec with
    | none => .done l
    | some dec =>
      let (nBytesRead, buf, dec) := dec.read l.nBytes l.stream.buf
      let stream := { l.stream with
        decoders := { entry with dec := some dec } :: later
        buf := buf }
      if nBytesRead = 0 then .done (removeFront { l with stream := stream })
      else
        let nSamplesRead := buf.length / 4 / 2
        match stream.encoder.feed (floatsOf buf) nSamplesRead stream.bitrate with
        | none => .running
        | some (encoder, dumped) =>
          .done (removeFront { l with
            stream := { stream with
              encoder := encoder
              nSamples := stream.nSamples + nSamplesRead }
            nBytes := l.nBytes - buf.length
            osBufData := l.osBufData ++ dumped })

def advanceBody (media : Media) (l : Advance c) : Imperative.Outcome Exn (Advance c) :=
  (openFront media l).bind readFront

def wants (l : Advance c) : Bool := decide (0 < l.nBytes) && !l.stream.decoders.isEmpty

/-- The loop of `advance`. Each round reads something or removes a decoder. -/
def advanceLoop (media : Media) (samples : Nat) (s : Stream c) :
    Imperative.Outcome Exn (Advance c) :=
  Imperative.whileLoop wants (advanceBody media) (samples * 2 * 4 + s.decoders.length)
    (.start samples s)

def finalizeIfDone (l : Advance c) : Imperative.Outcome Exn (Advance c) :=
  if l.stream.decoders.isEmpty then
    match l.stream.encoder.finalize l.stream.bitrate with
    | none => .running
    | some (encoder, dumped) =>
      .done { l with
        stream := { l.stream with encoder := encoder }
        osBufData := l.osBufData ++ dumped }
  else .done l

/-- The local variables when the segments are about to be written. An exception leaves the
stream as it is at that moment, and the other variables are gone. -/
def advance (media : Media) (samples : Nat) (s : Stream c) :
    Imperative.Outcome Exn (Advance c) :=
  (advanceLoop media samples s).bind finalizeIfDone

/-- `json(metadata).dump()`. -/
def smeta (floatText : Rat → Bytes) (metadata : List Record) : Bytes :=
  (Json.array (metadata.map Record.toJson)).dump floatText

def segments (floatText : Rat → Bytes) (metadata : List Record) (data : Bytes) : Bytes :=
  segment (str "meta") (smeta floatText metadata) ++ segment (str "data") data

inductive Op where
  | append (filename : Bytes) (offs : Rat)
  | advance (media : Media) (samples : Nat)

inductive Reply where
  | appended
  | segments (metadata : List Record) (data : Bytes)
  | threw (e : Exn)

def step (s : Stream c) : Op → Option (Stream c × Reply)
  | .append filename offs => some (s.append filename offs, .appended)
  | .advance media samples =>
    match s.advance media samples with
    | .done l => some (l.stream, .segments l.metadata l.osBufData)
    | .thrown e l => some (l.stream, .threw e)
    | .running => none

abbrev run : Stream c → List Op → Option (Stream c × List Reply) := Run.run step

end Stream

end HttpAudioServer
