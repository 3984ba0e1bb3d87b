import HttpAudioServer.Decoder
import HttpAudioServer.Library.Imperative
import HttpAudioServer.Library.Memory

/-! The encoder class. libopus and libwebm are not in the repository: they are a `Codec`,
two machines of any kind that the encoder drives. A float is its 32 bits, so that `0.0`
is the word 0; a sample is one float for each channel. -/
namespace HttpAudioServer

abbrev FloatBits := UInt32

/-- `opusEncodeFloat` also takes the bitrate set just before the call, and returns the size
and the output buffer. Each call of the muxer lists the blocks it passes to `Write`. -/
structure Codec where
  Opus : Type
  opusEncoderCreate : UInt64 → Nat → Opus
  opusEncodeFloat : Opus → Nat → List FloatBits → Opus × Int × Bytes
  Muxer : Type
  init : UInt64 → Nat → Bytes → Muxer × List Bytes
  addFrame : Muxer → Bytes → UInt64 → Muxer × List Bytes
  finalize : Muxer → Muxer × List Bytes

/-- Every frame gives a packet, and every packet makes the muxer write. -/
structure Codec.Talks (c : Codec) : Prop where
  size : ∀ enc bitrate frame, 0 < (c.opusEncodeFloat enc bitrate frame).2.1
  writes : ∀ segment packet ts, (c.addFrame segment packet ts).2.flatten ≠ []

def Codec.plain : Codec where
  Opus := Unit
  opusEncoderCreate _ _ := ()
  opusEncodeFloat _ _ _ := ((), 1, [0])
  Muxer := Unit
  init _ _ _ := ((), [[0x1a]])
  addFrame _ packet _ := ((), [0xa3 :: packet])
  finalize _ := ((), [[0x1c]])

theorem plain_talks : Codec.plain.Talks where
  size _ _ _ := Int.one_pos
  writes _ _ _ := by simp [Codec.plain]

/-- `dumped` is not in the code: it records the bytes that `dump` has passed on so far. -/
structure BufferMkvWriter where
  buf : Bytes := []
  bytesWritten : Nat := 0
  dumped : Bytes := []

namespace BufferMkvWriter

def write (w : BufferMkvWriter) (block : Bytes) : BufferMkvWriter :=
  { w with buf := w.buf ++ block, bytesWritten := w.bytesWritten + block.length }

def writeAll (w : BufferMkvWriter) (blocks : List Bytes) : BufferMkvWriter :=
  blocks.foldl write w

def position (w : BufferMkvWriter) : Nat := w.bytesWritten

def dump (w : BufferMkvWriter) : BufferMkvWriter × Bytes :=
  ({ w with buf := [], dumped := w.dumped ++ w.buf }, w.buf)

end BufferMkvWriter

/-- The calls that leave the repository, with what the muxer wrote during each. -/
inductive CodecCall where
  | init (writes : List Bytes)
  | opusEncodeFloat (frame : List FloatBits)
  | addFrame (packet : Bytes) (ts : UInt64) (writes : List Bytes)
  | finalize (writes : List Bytes)
deriving DecidableEq, Repr

/-- `calls` and `taken` are not in the code: the calls made so far, and the number of
samples that the buffer has kept. -/
structure EncoderImpl (c : Codec) where
  rate : UInt64
  nChannels : Nat
  frameSize : Nat
  buf : List FloatBits
  bufPtr : Nat
  granule : UInt64 := 0
  done : Bool := false
  mkvWriter : BufferMkvWriter
  mkvSegment : c.Muxer
  enc : c.Opus
  calls : List CodecCall
  taken : Nat := 0

namespace EncoderImpl

variable {c : Codec}

/-- The packed structure: magic, version, channels, pre-skip, rate, gain, mapping family. -/
def opusMkvCodecPrivate (channelCount : Nat) (sampleRate : UInt64) : Bytes :=
  [0x4f, 0x70, 0x75, 0x73, 0x48, 0x65, 0x61, 0x64, 1, UInt8.ofNat channelCount, 0, 0] ++
    Memory.leBytes sampleRate.toNat ++ [0, 0, 0]

def create (c : Codec) (rate : UInt64) (nChannels : Nat) : EncoderImpl c :=
  let frameSize := rate.toNat / 25
  let (segment, writes) := c.init rate nChannels (opusMkvCodecPrivate nChannels rate)
  { rate := rate
    nChannels := nChannels
    frameSize := frameSize
    buf := List.replicate (frameSize * nChannels) 0
    bufPtr := 0
    mkvWriter := BufferMkvWriter.writeAll {} writes
    mkvSegment := segment
    enc := c.opusEncoderCreate rate nChannels
    calls := [.init writes] }

/-- The end of one round of the loop in `encode`: a full buffer becomes a frame. -/
def encodeFrame (e : EncoderImpl c) (bitrate : Nat) : EncoderImpl c :=
  let (enc, size, packet) := c.opusEncodeFloat e.enc bitrate e.buf
  let e := { e with enc := enc, calls := e.calls ++ [CodecCall.opusEncodeFloat e.buf] }
  let e :=
    if 0 < size then
      let ts := (e.granule * 1000 * 1000 * 1000) / e.rate
      let packet := packet.take size.toNat
      let (segment, writes) := c.addFrame e.mkvSegment packet ts
      { e with
        mkvSegment := segment
        mkvWriter := e.mkvWriter.writeAll writes
        calls := e.calls ++ [CodecCall.addFrame packet ts writes] }
    else e
  { e with bufPtr := 0, granule := e.granule + UInt64.ofNat e.frameSize }

structure Loop (c : Codec) where
  impl : EncoderImpl c
  pcm : List FloatBits
  nSamples : Nat

/-- One round. At the end of the stream the rest of the buffer is filled with zeros from
`bufPtr` on, which is where the input of this round was copied to. -/
def round (bitrate : Nat) (flush : Bool) (l : Loop c) : Loop c :=
  let e := l.impl
  let nFloatsIn := min (e.buf.length - e.bufPtr) (l.nSamples * e.nChannels)
  let buf := Memory.overwrite e.buf e.bufPtr (l.pcm.take nFloatsIn)
  let atEnd := flush && decide (l.nSamples ≤ e.frameSize)
  let l : Loop c :=
    if atEnd then
      { impl := { e with
          buf := buf.take e.bufPtr ++ List.replicate (buf.length - e.bufPtr) 0
          bufPtr := buf.length }
        pcm := l.pcm
        nSamples := 0 }
    else
      { impl := { e with
          buf := buf
          bufPtr := e.bufPtr + nFloatsIn
          taken := e.taken + nFloatsIn / e.nChannels }
        pcm := l.pcm.drop nFloatsIn
        nSamples := l.nSamples - nFloatsIn / e.nChannels }
  if l.impl.bufPtr = l.impl.buf.length then { l with impl := l.impl.encodeFrame bitrate } else l

/-- The loop of `encode`. Fuel is one round for each sample, after the first. -/
def rounds (bitrate : Nat) (flush : Bool) (l : Loop c) : Imperative.Outcome Empty (Loop c) :=
  Imperative.doWhile (fun l => decide (0 < l.nSamples)) (fun l => .done (round bitrate flush l))
    l.nSamples l

def close (e : EncoderImpl c) : EncoderImpl c :=
  let (segment, writes) := c.finalize e.mkvSegment
  { e with
    mkvSegment := segment
    mkvWriter := e.mkvWriter.writeAll writes
    granule := 0
    done := true
    calls := e.calls ++ [CodecCall.finalize writes] }

def dump (e : EncoderImpl c) : EncoderImpl c × Bytes :=
  let (writer, dumped) := e.mkvWriter.dump
  ({ e with mkvWriter := writer }, dumped)

/-- The encoder afterwards, and what has been dumped into the output stream. There is no
value when the loop does not end. -/
def encode (e : EncoderImpl c) (pcm : List FloatBits) (nSamples bitrate : Nat) (flush : Bool) :
    Option (EncoderImpl c × Bytes) :=
  if e.done then some (e, [])
  else
    (rounds bitrate flush ⟨e, pcm, nSamples⟩).result?.map fun l =>
      if flush then l.impl.close.dump else l.impl.dump

def feed (e : EncoderImpl c) (pcm : List FloatBits) (nSamples bitrate : Nat) :
    Option (EncoderImpl c × Bytes) :=
  e.encode pcm nSamples bitrate false

/-- `Encoder::finalize`: there is no input, and the pointer to it is null. -/
def finalize (e : EncoderImpl c) (bitrate : Nat) : Option (EncoderImpl c × Bytes) :=
  e.encode [] 0 bitrate true

end EncoderImpl

end HttpAudioServer
