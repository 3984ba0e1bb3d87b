import HttpAudioServer.Playback
import HttpAudioServer.Library.Sources

/-! The playlist as a queue of byte strings. What a decoder has delivered and what it has
still to deliver make up the output of its file, and a call draws on the queue. -/
namespace HttpAudioServer

/-- The decoders of a call yield the given byte strings. -/
def Media.Yields (pcm : Bytes → Rat → Bytes) (media : Media) : Prop :=
  ∀ filename offs output, media.decoder filename offs = .ok output →
    output = .finite (pcm filename offs)

def Media.ofFiles (pcm : Bytes → Rat → Bytes) : Media where
  decoder filename offs := .ok (.finite (pcm filename offs))
  metadata _ := .ok .unknown

theorem media_yields (pcm : Bytes → Rat → Bytes) : (Media.ofFiles pcm).Yields pcm := by
  intro filename offs output decoder
  exact (Except.ok.inj decoder).symm

def Stream.Op.Yields (pcm : Bytes → Rat → Bytes) : Stream.Op → Prop
  | .append _ _ => True
  | .advance media _ => media.Yields pcm

namespace Entry

def file (e : Entry) : Bytes × Rat := (e.filename, e.offs)

def output (pcm : Bytes → Rat → Bytes) (e : Entry) : Bytes := pcm e.filename e.offs

/-- What is still to be read, from the decoder or from the one that will be made. -/
def unread (pcm : Bytes → Rat → Bytes) (e : Entry) : Bytes :=
  match e.dec with
  | none => e.output pcm
  | some d => d.stdout.bytes

/-- The decoder, once there is one, is somewhere in the output of its file. -/
def Tracks (pcm : Bytes → Rat → Bytes) (e : Entry) : Prop :=
  ∀ d, e.dec = some d → d.stdout = .finite (e.unread pcm) ∧
    e.delivered ++ e.unread pcm = e.output pcm

def fed (e : Entry) : List FloatBits := e.reads.flatMap fun r => wholeFloats r.got

theorem delivered_unread {pcm : Bytes → Rat → Bytes} {e : Entry} (tracks : e.Tracks pcm) :
    e.delivered ++ e.unread pcm = e.output pcm := by
  cases dec : e.dec with
  | none => simp [delivered, reads, unread, dec]
  | some d => exact (tracks d dec).2

theorem tracks_of_none {pcm : Bytes → Rat → Bytes} {e : Entry} (fresh : e.dec = none) :
    e.Tracks pcm := by
  intro d dec
  simp [fresh] at dec

theorem reads_of_some {e : Entry} {d : Decoder} (dec : e.dec = some d) : e.reads = d.log := by
  simp [reads, dec]

theorem reads_of_none {e : Entry} (fresh : e.dec = none) : e.reads = [] := by
  simp [reads, fresh]

theorem delivered_silent (e : Entry) (silent : e.reads = []) : e.delivered = [] := by
  simp [delivered, silent]

theorem fed_silent (e : Entry) (silent : e.reads = []) : e.fed = [] := by
  simp [fed, silent]

theorem unread_of_none {pcm : Bytes → Rat → Bytes} {e : Entry} (fresh : e.dec = none) :
    e.unread pcm = e.output pcm := by
  simp [unread, fresh]

theorem unread_of_some {pcm : Bytes → Rat → Bytes} {e : Entry} {d : Decoder} {left : Bytes}
    (dec : e.dec = some d) (stdout : d.stdout = .finite left) : e.unread pcm = left := by
  simp [unread, dec, stdout, Output.bytes]

section Read

variable {e : Entry} {d next : Decoder} {offset n : Nat} {got : Bytes} (dec : e.dec = some d)
  (log : next.log = d.log ++ [⟨offset, n, got⟩])

include dec log

theorem reads_read : { e with dec := some next }.reads = e.reads ++ [⟨offset, n, got⟩] := by
  rw [reads_of_some dec, reads_of_some rfl, log]

theorem delivered_read : { e with dec := some next }.delivered = e.delivered ++ got := by
  simp [delivered, reads_read dec log]

theorem fed_read : { e with dec := some next }.fed = e.fed ++ wholeFloats got := by
  simp [fed, reads_read dec log]

end Read

theorem tracks_read {pcm : Bytes → Rat → Bytes} {e : Entry} {d next : Decoder} {n : Nat}
    {got : Bytes} (tracks : e.Tracks pcm) (dec : e.dec = some d)
    (taken : got = d.stdout.take n) (left : next.stdout = d.stdout.drop n)
    (log : next.log = d.log ++ [⟨d.delivered.length, n, got⟩]) :
    got = (e.unread pcm).take n ∧
    { e with dec := some next }.unread pcm = (e.unread pcm).drop n ∧
    { e with dec := some next }.Tracks pcm := by
  obtain ⟨stdout, whole⟩ := tracks d dec
  rw [stdout] at taken left
  have unread : { e with dec := some next }.unread pcm = (e.unread pcm).drop n :=
    unread_of_some rfl left
  refine ⟨taken, unread, ?_⟩
  intro d' same
  cases same
  refine ⟨by rw [left, unread]; rfl, ?_⟩
  rw [unread, delivered_read dec log, taken, List.append_assoc]
  change e.delivered ++ ((e.unread pcm).take n ++ (e.unread pcm).drop n) = e.output pcm
  rw [List.take_append_drop, whole]

end Entry

variable {c : Codec}

namespace Stream

def entries (s : Stream c) : List Entry := s.removed ++ s.decoders

def delivered (s : Stream c) : Bytes := s.entries.flatMap Entry.delivered

def unreads (pcm : Bytes → Rat → Bytes) (s : Stream c) : List Bytes :=
  s.decoders.map (Entry.unread pcm)

def fed (s : Stream c) : List FloatBits := s.entries.flatMap Entry.fed

/-- What is read but not taken over yet is still in the encoder, unless it is finished. -/
structure Inv (pcm : Bytes → Rat → Bytes) (s : Stream c) : Prop extends s.Ready where
  untouched : ∀ e ∈ s.decoders.tail, e.dec = none
  tracks : ∀ e ∈ s.entries, e.Tracks pcm
  exhausted : ∀ e ∈ s.removed, ∃ d, e.dec = some d ∧ d.stdout = .finite []
  samples : s.fed.length = s.nSamples * 2
  encoder : s.encoder.done = false →
    s.encoder.view = (EncoderImpl.create c 48000 2).view.feed s.bitrate s.fed
  drained : (s.encoder.done = true ∨ s.delivered ≠ []) → s.encoder.mkvWriter.buf = []

theorem create_inv (pcm : Bytes → Rat → Bytes) (bitrate : Nat) : (create c bitrate).Inv pcm where
  toReady := create_ready bitrate
  untouched := by simp [create]
  tracks := by simp [create, entries]
  exhausted := by simp [create]
  samples := rfl
  encoder _ := by
    have valid := EncoderImpl.create_valid (c := c) 48000 2 (by decide) (by decide)
    exact (Framer.feed_nil bitrate valid.pending_lt).symm
  drained some_read := by
    have closed : (create c bitrate).encoder.done = false := rfl
    have nothing : (create c bitrate).delivered = [] := rfl
    simp [closed, nothing] at some_read

theorem entries_append (s : Stream c) (filename : Bytes) (offs : Rat) :
    (s.append filename offs).entries = s.entries ++ [⟨filename, offs, none, none⟩] := by
  simp [Stream.append, entries]

theorem Inv.append {pcm : Bytes → Rat → Bytes} {s : Stream c} (inv : s.Inv pcm)
    (filename : Bytes) (offs : Rat) : (s.append filename offs).Inv pcm := by
  have entries := s.entries_append filename offs
  have delivered : (s.append filename offs).delivered = s.delivered := by
    simp [Stream.delivered, entries, Entry.delivered, Entry.reads]
  have fed : (s.append filename offs).fed = s.fed := by
    simp [Stream.fed, entries, Entry.fed, Entry.reads]
  constructor
  · exact ⟨inv.valid, inv.format, inv.buf⟩
  · intro e member
    cases front : s.decoders with
    | nil => simp [Stream.append, front] at member
    | cons first later =>
      have untouched := inv.untouched
      simp only [front, List.tail_cons] at untouched
      simp only [Stream.append, front, List.cons_append, List.tail_cons, List.mem_append,
        List.mem_singleton] at member
      rcases member with old | rfl
      · exact untouched e old
      · rfl
  · intro e member
    rw [entries, List.mem_append, List.mem_singleton] at member
    rcases member with old | rfl
    · exact inv.tracks e old
    · exact Entry.tracks_of_none rfl
  · exact inv.exhausted
  · rw [fed]
    exact inv.samples
  · intro active
    rw [fed]
    exact inv.encoder active
  · rw [delivered]
    exact inv.drained

section Front

variable {pcm : Bytes → Rat → Bytes} {media : Media} {l : Advance c} {e : Entry}
  {later : List Entry}

theorem unreads_front {s : Stream c} (front : s.decoders = e :: later) :
    s.unreads pcm = e.unread pcm :: later.map (Entry.unread pcm) := by
  rw [unreads, front, List.map_cons]

theorem Inv.behind {s : Stream c} (inv : s.Inv pcm) (front : s.decoders = e :: later) :
    ∀ x ∈ later, x.dec = none := by
  simpa only [front, List.tail_cons] using inv.untouched

theorem Inv.front_tracks {s : Stream c} (inv : s.Inv pcm) (front : s.decoders = e :: later) :
    e.Tracks pcm :=
  inv.tracks e (by simp [entries, front])

theorem flatMap_front {β : Type} {f : Entry → List β} (silent : ∀ x : Entry, x.reads = [] → f x = [])
    {s : Stream c} (front : s.decoders = e :: later) (untouched : ∀ x ∈ later, x.dec = none) :
    s.entries.flatMap f = s.removed.flatMap f ++ f e := by
  have nothing : later.flatMap f = [] := by
    rw [List.flatMap_eq_nil_iff]
    intro x member
    exact silent x (Entry.reads_of_none (untouched x member))
  rw [entries, front, List.flatMap_append, List.flatMap_cons, nothing, List.append_nil]

theorem flatMap_opens {β : Type} {f : Entry → List β} (silent : ∀ x : Entry, x.reads = [] → f x = [])
    (front : l.stream.decoders = e :: later) (untouched : ∀ x ∈ later, x.dec = none)
    (fresh : e.dec = none) (output : Output) (record : Option Record) :
    (l.withFront { e with dec := some (Decoder.start output), record := record }
      later).stream.entries.flatMap f = l.stream.entries.flatMap f := by
  have opened : (l.withFront { e with dec := some (Decoder.start output), record := record }
      later).stream.decoders =
        { e with dec := some (Decoder.start output), record := record } :: later := rfl
  rw [flatMap_front silent front untouched, flatMap_front silent opened untouched,
    silent e (Entry.reads_of_none fresh), silent _ rfl]
  rfl

theorem flatMap_reads {β : Type} {f : Entry → List β} (silent : ∀ x : Entry, x.reads = [] → f x = [])
    (front : l.stream.decoders = e :: later) (untouched : ∀ x ∈ later, x.dec = none)
    {next : Decoder} {got : Bytes} {encoder : EncoderImpl c} {out : Bytes} {more : List β}
    (grows : f { e with dec := some next } = f e ++ more) :
    (l.read e later next got encoder out).stream.entries.flatMap f =
      l.stream.entries.flatMap f ++ more := by
  have read : (l.read e later next got encoder out).stream.decoders =
      { e with dec := some next } :: later := rfl
  rw [flatMap_front silent front untouched, flatMap_front silent read untouched, grows,
    List.append_assoc]
  rfl

theorem entries_pops (front : l.stream.decoders = e :: later) :
    (l.popped e later).stream.entries = l.stream.entries := by
  simp [Advance.popped, entries, front]

theorem unreads_opens (yields : media.Yields pcm) (front : l.stream.decoders = e :: later)
    (fresh : e.dec = none) {output : Output}
    (decoder : media.decoder e.filename e.offs = .ok output) (record : Option Record) :
    (l.withFront { e with dec := some (Decoder.start output), record := record }
      later).stream.unreads pcm = l.stream.unreads pcm := by
  have finite : output = .finite (e.output pcm) := yields _ _ _ decoder
  subst finite
  rw [unreads_front front, Entry.unread_of_none fresh]
  rfl

theorem unreads_reads (inv : l.stream.Inv pcm) (front : l.stream.decoders = e :: later)
    {d next : Decoder} (dec : e.dec = some d) {got : Bytes} (taken : got = d.stdout.take l.nBytes)
    (left : next.stdout = d.stdout.drop l.nBytes)
    (log : next.log = d.log ++ [⟨d.delivered.length, l.nBytes, got⟩])
    (encoder : EncoderImpl c) (out : Bytes) :
    got = (e.unread pcm).take l.nBytes ∧
    (l.read e later next got encoder out).stream.unreads pcm =
      (e.unread pcm).drop l.nBytes :: later.map (Entry.unread pcm) := by
  obtain ⟨got_eq, unread, _⟩ := Entry.tracks_read (inv.front_tracks front) dec taken left log
  have read : (l.read e later next got encoder out).stream.decoders =
      { e with dec := some next } :: later := rfl
  rw [unreads_front read, unread]
  exact ⟨got_eq, rfl⟩

end Front

theorem Inv.opens {pcm : Bytes → Rat → Bytes} {media : Media} (yields : media.Yields pcm)
    {l : Advance c} (inv : l.stream.Inv pcm) {e : Entry} {later : List Entry} {output : Output}
    (front : l.stream.decoders = e :: later) (fresh : e.dec = none)
    (decoder : media.decoder e.filename e.offs = .ok output) (record : Option Record) :
    (l.withFront { e with dec := some (Decoder.start output), record := record }
      later).stream.Inv pcm := by
  have untouched := inv.behind front
  have finite : output = .finite (e.output pcm) := yields _ _ _ decoder
  have delivered := flatMap_opens Entry.delivered_silent front untouched fresh output record
  have fed := flatMap_opens Entry.fed_silent front untouched fresh output record
  constructor
  · exact ⟨inv.valid, inv.format, inv.buf⟩
  · exact untouched
  · intro x member
    rcases List.mem_append.mp member with old | new
    · exact inv.tracks x (List.mem_append_left _ old)
    · rcases List.mem_cons.mp new with rfl | still
      · intro d same
        cases same
        subst finite
        exact ⟨rfl, rfl⟩
      · exact Entry.tracks_of_none (untouched x still)
  · exact inv.exhausted
  · rw [Stream.fed, fed]
    exact inv.samples
  · rw [Stream.fed, fed]
    exact inv.encoder
  · rw [Stream.delivered, delivered]
    exact inv.drained

theorem Inv.reads {pcm : Bytes → Rat → Bytes} {l : Advance c} (inv : l.stream.Inv pcm)
    {e : Entry} {later : List Entry} {d next : Decoder} {got : Bytes}
    {encoder : EncoderImpl c} {out : Bytes}
    (front : l.stream.decoders = e :: later) (dec : e.dec = some d)
    (taken : got = d.stdout.take l.nBytes) (left : next.stdout = d.stdout.drop l.nBytes)
    (log : next.log = d.log ++ [⟨d.delivered.length, l.nBytes, got⟩])
    (fed : Fed l.stream.encoder l.stream.bitrate got encoder out)
    (ready : (l.read e later next got encoder out).stream.Ready) :
    (l.read e later next got encoder out).stream.Inv pcm := by
  have untouched := inv.behind front
  have delivered' : (l.read e later next got encoder out).stream.delivered =
      l.stream.delivered ++ got :=
    flatMap_reads Entry.delivered_silent front untouched (Entry.delivered_read dec log)
  have fed' : (l.read e later next got encoder out).stream.fed =
      l.stream.fed ++ wholeFloats got :=
    flatMap_reads Entry.fed_silent front untouched (Entry.fed_read dec log)
  have closed : encoder.done = l.stream.encoder.done := by
    have same := congrArg Framer.done fed.view
    rwa [Framer.feed_done] at same
  constructor
  · exact ready
  · exact untouched
  · intro x member
    rcases List.mem_append.mp member with old | new
    · exact inv.tracks x (List.mem_append_left _ old)
    · rcases List.mem_cons.mp new with rfl | still
      · exact (Entry.tracks_read (inv.front_tracks front) dec taken left log).2.2
      · exact Entry.tracks_of_none (untouched x still)
  · exact inv.exhausted
  · have samples := inv.samples
    rw [fed', List.length_append, length_wholeFloats, samples]
    simp only [Advance.read]
    omega
  · intro active
    have whole : (create c 48000).encoder.view.format.nChannels ∣ l.stream.fed.length := by
      rw [inv.samples]
      exact Nat.dvd_mul_left 2 _
    have positive : 0 < (create c 48000).encoder.view.format.frameLength :=
      (create_ready 48000).valid.frameLength_pos
    have before := inv.encoder (closed ▸ active)
    have view := fed.view
    rw [before] at view
    rw [fed']
    exact view.trans (Framer.feed_append _ _ positive whole _).symm
  · intro some_read
    by_cases closed' : l.stream.encoder.done = true
    · simp only [Advance.read, fed.idle closed']
      exact inv.drained (.inl closed')
    · by_cases empty : got = []
      · rw [delivered', empty, List.append_nil] at some_read
        simp only [Advance.read, (fed.nothing empty).1] at some_read ⊢
        exact inv.drained some_read
      · exact fed.drained (by simpa using closed') empty

theorem Inv.pops {pcm : Bytes → Rat → Bytes} {l : Advance c} (inv : l.stream.Inv pcm) {e : Entry}
    {later : List Entry} {d : Decoder} (front : l.stream.decoders = e :: later)
    (dec : e.dec = some d) (ended : d.stdout = .finite []) :
    (l.popped e later).stream.Inv pcm := by
  have entries := entries_pops front
  constructor
  · exact ⟨inv.valid, inv.format, inv.buf⟩
  · exact fun x member => inv.behind front x (List.mem_of_mem_tail member)
  · rw [entries]
    exact inv.tracks
  · intro x member
    rcases List.mem_append.mp member with old | new
    · exact inv.exhausted x old
    · obtain rfl := List.mem_singleton.mp new
      exact ⟨d, dec, ended⟩
  · rw [Stream.fed, entries]
    exact inv.samples
  · rw [Stream.fed, entries]
    exact inv.encoder
  · rw [Stream.delivered, entries]
    exact inv.drained

theorem Inv.act {pcm : Bytes → Rat → Bytes} {media : Media} (yields : media.Yields pcm)
    {l l' : Advance c} (inv : l.stream.Inv pcm) (act : Act media l l') : l'.stream.Inv pcm := by
  have ready := act.ready inv.toReady
  cases act with
  | opens front fresh decoder probe => exact inv.opens yields front fresh decoder _
  | reads wanted front dec taken left log fed => exact inv.reads front dec taken left log fed ready
  | pops wanted front dec ended => exact inv.pops front dec ended

theorem Inv.acts {pcm : Bytes → Rat → Bytes} {media : Media} (yields : media.Yields pcm)
    {l l' : Advance c} (inv : l.stream.Inv pcm) (acts : Acts media l l') : l'.stream.Inv pcm := by
  induction acts with
  | refl => exact inv
  | tail _ act ih => exact ih.act yields act

theorem Inv.fails {pcm : Bytes → Rat → Bytes} {media : Media} (yields : media.Yields pcm)
    {l l' : Advance c} (inv : l.stream.Inv pcm) (fails : Fails media l l') : l'.stream.Inv pcm := by
  cases fails with
  | decoder => exact inv
  | metadata front fresh decoder failed => exact inv.opens yields front fresh decoder _

theorem Inv.finishes {pcm : Bytes → Rat → Bytes} {l l' : Advance c} (inv : l.stream.Inv pcm)
    (finishes : Finishes l l') : l'.stream.Inv pcm := by
  have ready := finishes.ready inv.toReady
  cases finishes with
  | stays => exact inv
  | @closes encoder out drained closed =>
    have done : encoder.done = true := by
      have same := congrArg Framer.done closed.view
      exact same.trans (Framer.finalize_done _ _)
    refine ⟨ready, inv.untouched, inv.tracks, inv.exhausted, inv.samples, ?_, ?_⟩
    · intro active
      exact absurd (done.symm.trans active) (by decide)
    · intro _
      by_cases already : l.stream.encoder.done = true
      · simp only [closed.idle already]
        exact inv.drained (.inl already)
      · exact closed.drained (by simpa using already)

theorem Inv.steps {pcm : Bytes → Rat → Bytes} {s t : Stream c} {op : Op} {reply : Reply}
    (inv : s.Inv pcm) (yields : op.Yields pcm) (steps : Steps s op t reply) : t.Inv pcm := by
  cases steps with
  | appends filename offs => exact inv.append filename offs
  | returns _ acts _ finishes => exact (Inv.acts yields inv acts).finishes finishes
  | throws _ acts fails => exact (Inv.acts yields inv acts).fails yields fails

def appended (ops : List Op) : List (Bytes × Rat) :=
  ops.filterMap fun
    | .append filename offs => some (filename, offs)
    | .advance _ _ => none

def files (s : Stream c) : List (Bytes × Rat) := s.entries.map Entry.file

theorem Acts.files {media : Media} {l l' : Advance c} (acts : Acts media l l') :
    l'.stream.files = l.stream.files := by
  induction acts with
  | refl => rfl
  | tail _ act ih =>
    rw [← ih]
    cases act with
    | opens front => simp [Stream.files, Entry.file, entries, front, Advance.opened, Advance.withFront]
    | reads _ front => simp [Stream.files, Entry.file, entries, front, Advance.read]
    | pops _ front => rw [Stream.files, entries_pops front, Stream.files]

theorem Steps.files {s t : Stream c} {op : Op} {reply : Reply} (steps : Steps s op t reply) :
    t.files = s.files ++ appended [op] := by
  cases steps with
  | appends filename offs => simp [Stream.files, Entry.file, entries_append, appended]
  | returns _ acts _ finishes =>
    have same := acts.files
    simp only [appended, List.filterMap_cons, List.filterMap_nil, List.append_nil]
    cases finishes <;> exact same
  | throws _ acts fails =>
    have same := acts.files
    simp only [appended, List.filterMap_cons, List.filterMap_nil, List.append_nil]
    refine Eq.trans ?_ same
    cases fails with
    | decoder => rfl
    | metadata front => simp [Stream.files, Entry.file, entries, front, Advance.withFront]

theorem Inv.removed_delivered {pcm : Bytes → Rat → Bytes} {s : Stream c} (inv : s.Inv pcm) {e : Entry}
    (member : e ∈ s.removed) : e.delivered = e.output pcm := by
  obtain ⟨d, dec, ended⟩ := inv.exhausted e member
  have whole := (inv.tracks e (List.mem_append_left _ member) d dec).2
  rw [Entry.unread_of_some dec ended, List.append_nil] at whole
  exact whole

/-- The states that calls on a new stream lead to, in any order and however each one ends. -/
def Reachable (pcm : Bytes → Rat → Bytes) (s : Stream c) : Prop :=
  ∃ bitrate ops replies, (∀ op ∈ ops, op.Yields pcm) ∧
    run (create c bitrate) ops = some (s, replies)

/-- What holds at first and is kept by every call holds after every run, and there is one. -/
theorem run_keeps (pcm : Bytes → Rat → Bytes) (bitrate : Nat)
    (law : List Op → List Reply → Stream c → Prop) (allowed : Stream c → Op → Prop)
    (initial : law [] [] (create c bitrate))
    (keeps : ∀ ops replies s op t reply, run (create c bitrate) ops = some (s, replies) →
      s.Inv pcm → law ops replies s → op.Yields pcm → allowed s op → Steps s op t reply →
      law (ops ++ [op]) (replies ++ [reply]) t)
    (ops : List Op) (yields : ∀ op ∈ ops, op.Yields pcm)
    (along : Run.Along step allowed (create c bitrate) ops) :
    ∃ t replies, run (create c bitrate) ops = some (t, replies) ∧ t.Inv pcm ∧
      law ops replies t := by
  have extend : ∀ ops replies (s : Stream c) op, run (create c bitrate) ops = some (s, replies) →
      (s.Inv pcm ∧ law ops replies s) → (op.Yields pcm ∧ allowed s op) →
      ∃ t reply, step s op = some (t, reply) ∧ t.Inv pcm ∧
        law (ops ++ [op]) (replies ++ [reply]) t := by
    rintro ops replies s op reached ⟨inv, before⟩ ⟨yields, allowed⟩
    obtain ⟨t, reply, stepped, steps⟩ := step_spec inv.toReady op
    exact ⟨t, reply, stepped, inv.steps yields steps,
      keeps ops replies s op t reply reached inv before yields allowed steps⟩
  exact Run.run_induct _ _ ⟨create_inv pcm bitrate, initial⟩ extend ops
    ((Run.along_of_forall yields).and along)

theorem Reachable.keeps {pcm : Bytes → Rat → Bytes} (law : Stream c → Prop)
    (initial : ∀ bitrate, law (create c bitrate))
    (keeps : ∀ s op t reply, s.Inv pcm → law s → op.Yields pcm → Steps s op t reply → law t)
    {s : Stream c} (reachable : s.Reachable pcm) : s.Inv pcm ∧ law s := by
  obtain ⟨bitrate, ops, replies, yields, reached⟩ := reachable
  obtain ⟨t, replies', reached', inv, final⟩ := run_keeps pcm bitrate (fun _ _ => law)
    (fun _ _ => True) (initial bitrate)
    (fun _ _ s op t reply _ inv before yields _ steps => keeps s op t reply inv before yields steps)
    ops yields (Run.along_of_forall fun _ _ => trivial)
  cases reached.symm.trans reached'
  exact ⟨inv, final⟩

theorem Reachable.inv {pcm : Bytes → Rat → Bytes} {s : Stream c} (reachable : s.Reachable pcm) :
    s.Inv pcm :=
  (reachable.keeps (fun _ => True) (fun _ => trivial) fun _ _ _ _ _ _ _ _ => trivial).1

end Stream

end HttpAudioServer
