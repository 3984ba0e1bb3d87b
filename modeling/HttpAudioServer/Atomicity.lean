import HttpAudioServer.Announcements
import HttpAudioServer.EndOfStream

/-! What a call of `advance` that throws leaves behind. Its stream has gone on: what was read
is in the encoder. What it had collected for its answer is gone. -/
namespace HttpAudioServer

variable {c : Codec}

def Media.Tells (tags : Bytes → Metadata) (media : Media) : Prop :=
  ∀ filename metadata, media.metadata filename = .ok metadata → metadata = tags filename

theorem ofFiles_tells (pcm : Bytes → Rat → Bytes) : (Media.ofFiles pcm).Tells fun _ => .unknown :=
  fun _ _ found => (Except.ok.inj found).symm

namespace Stream

def recordsOf (pcm : Bytes → Rat → Bytes) (tags : Bytes → Metadata)
    (files : List (Bytes × Rat)) : List Record :=
  (schedule pcm 0 files).map fun (start, filename) => ⟨start, filename, tags filename⟩

/-- The records that are due: those of the files that have been opened. -/
def due (pcm : Bytes → Rat → Bytes) (tags : Bytes → Metadata) (s : Stream c) : List Record :=
  recordsOf pcm tags (s.opened.map Entry.file)

/-- The record that a call did not come to make before it threw: the decoder of the entry at
the front is stored, and there will be no other occasion. -/
def Advance.unannounced (tags : Bytes → Metadata) (l : Advance c) : List Record :=
  match l.stream.decoders with
  | [] => []
  | e :: _ =>
    if e.dec.isSome then [⟨(l.stream.nSamples : Rat) / 48000, e.filename, tags e.filename⟩] else []

/-- No file is appended to a stream whose encoder is finalised. -/
def Op.InTime (s : Stream c) : Op → Prop
  | .append _ _ => s.encoder.done = false
  | .advance _ _ => True

def Op.Tells (tags : Bytes → Metadata) : Op → Prop
  | .append _ _ => True
  | .advance media _ => media.Tells tags

/-- A call as the page makes it, among files that do not change and are not cut. -/
structure Op.Regular (pcm : Bytes → Rat → Bytes) (tags : Bytes → Metadata) (s : Stream c) (op : Op) :
    Prop where
  yields : op.Yields pcm
  tells : op.Tells tags
  cuts : op.CutsWhole pcm s
  inTime : op.InTime s

/-- Once the encoder is finalised, nothing is left to play and it has had everything. -/
def Complete (s : Stream c) : Prop :=
  s.encoder.done = true → s.decoders = [] ∧
    s.encoder.view =
      ((EncoderImpl.create c 48000 2).view.feed s.bitrate s.fed).finalize s.bitrate

section Call

variable {pcm : Bytes → Rat → Bytes} {tags : Bytes → Metadata} {media : Media} {l l' : Advance c}

theorem due_opens (inv : l.stream.Inv pcm) (steady : l.stream.AllSteady pcm) {e : Entry}
    {later : List Entry} (front : l.stream.decoders = e :: later) (fresh : e.dec = none)
    {s : Stream c} (inv' : s.Inv pcm) {d : Decoder} {record : Option Record}
    (decoders : s.decoders = { e with dec := some d, record := record } :: later)
    (removed : s.removed = l.stream.removed) :
    s.due pcm tags = l.stream.due pcm tags ++
      [⟨(l.stream.nSamples : Rat) / 48000, e.filename, tags e.filename⟩] := by
  have start := samples_removed inv steady front fresh
  rw [due, due, opened_front inv' decoders rfl, opened_fresh inv front fresh, removed,
    List.map_append, List.map_singleton, recordsOf, schedule_concat, Nat.zero_add, ← start,
    List.map_append]
  rfl

theorem Act.due {past : List Record} (yields : media.Yields pcm) (tells : media.Tells tags)
    (inv : l.stream.Inv pcm) (steady : l.stream.AllSteady pcm) (act : Act media l l')
    (before : l.stream.due pcm tags = past ++ l.metadata) :
    l'.stream.due pcm tags = past ++ l'.metadata := by
  have inv' := inv.act yields act
  cases act with
  | @opens e later output metadata front fresh decoder probe =>
    rw [due_opens inv steady front fresh inv' rfl rfl, before, ← tells _ _ probe, List.append_assoc]
    rfl
  | @reads e later d next got encoder out wanted front dec taken left log fed =>
    refine Eq.trans ?_ before
    rw [Stream.due, Stream.due, opened_front inv front dec, opened_front inv' rfl rfl,
      List.map_append, List.map_append]
    rfl
  | pops wanted front dec ended =>
    rw [Stream.due, opened, entries_pops front]
    exact before

theorem Acts.due {samples : Nat} {s : Stream c} (yields : media.Yields pcm)
    (tells : media.Tells tags) (inv : s.Inv pcm) (steady : s.AllSteady pcm)
    (cuts : Op.CutsWhole pcm s (.advance media samples)) (acts : Acts media (.start samples s) l) :
    l.stream.due pcm tags = s.due pcm tags ++ l.metadata := by
  induction acts with
  | refl => exact (List.append_nil _).symm
  | tail before act ih =>
    exact act.due yields tells (Inv.acts yields inv before) (steady.acts yields inv cuts before) ih

theorem Fails.due (yields : media.Yields pcm) (inv : l.stream.Inv pcm)
    (steady : l.stream.AllSteady pcm) (fails : Fails media l l') :
    l'.stream.due pcm tags = l.stream.due pcm tags ++ l'.unannounced tags ∧
      l'.metadata = l.metadata := by
  have inv' := inv.fails yields fails
  cases fails with
  | decoder front fresh failed => simp [Advance.unannounced, front, fresh]
  | metadata front fresh decoder failed =>
    exact ⟨due_opens inv steady front fresh inv' rfl rfl, rfl⟩

theorem Fails.encoder (fails : Fails media l l') :
    l'.stream.encoder = l.stream.encoder ∧ l'.osBufData = l.osBufData := by
  cases fails <;> exact ⟨rfl, rfl⟩

theorem Acts.drained (acts : Acts media l l') (drained : l.stream.decoders = []) : l' = l := by
  induction acts with
  | refl => rfl
  | tail _ act ih =>
    subst ih
    cases act with
    | opens front => simp [drained] at front
    | reads _ front => simp [drained] at front
    | pops _ front => simp [drained] at front

end Call

section Run

variable {pcm : Bytes → Rat → Bytes} {tags : Bytes → Metadata} {s t : Stream c} {op : Op}
  {reply : Reply}

theorem Steps.bitrate (steps : Steps s op t reply) : t.bitrate = s.bitrate := by
  cases steps with
  | appends => rfl
  | returns _ acts _ finishes =>
    have same := acts.bitrate
    cases finishes <;> exact same
  | throws _ acts fails =>
    have same := acts.bitrate
    cases fails <;> exact same

theorem Complete.steps (complete : s.Complete) (inv : s.Inv pcm) (yields : op.Yields pcm)
    (inTime : op.InTime s) (steps : Steps s op t reply) : t.Complete := by
  intro closed
  cases steps with
  | appends => exact absurd (inTime.symm.trans closed) (by decide)
  | @throws _ _ l l' _ _ acts fails =>
    have during : l.stream.encoder.done = true := fails.encoder.1 ▸ closed
    have before : s.encoder.done = true := acts.done.symm.trans during
    have same := acts.drained (complete before).1
    subst same
    cases fails with
    | decoder front => simp [Advance.start, (complete before).1] at front
    | metadata front => simp [Advance.start, (complete before).1] at front
  | @returns _ _ l l' _ acts _ finishes =>
    cases already : s.encoder.done with
    | true =>
      have same := acts.drained (complete already).1
      subst same
      cases finishes with
      | stays more => exact absurd (complete already).1 more
      | closes drained finalised =>
        simp only [finalised.idle already]
        exact complete already
    | false =>
      have still : l.stream.encoder.done = false := acts.done.trans already
      cases finishes with
      | stays => exact absurd (still.symm.trans closed) (by decide)
      | closes drained finalised =>
        have inv' : l.stream.Inv pcm := Inv.acts yields inv acts
        refine ⟨drained, finalised.view.trans ?_⟩
        rw [inv'.encoder still]
        rfl

theorem Steps.due (yields : op.Yields pcm) (tells : op.Tells tags) (inv : s.Inv pcm)
    (steady : s.AllSteady pcm) (cuts : op.CutsWhole pcm s) (steps : Steps s op t reply)
    (returns : ∀ e, reply ≠ .threw e) :
    t.due pcm tags = s.due pcm tags ++ announced [reply] := by
  cases steps with
  | appends filename offs =>
    rw [Stream.due, Stream.due, opened_append]
    exact (List.append_nil _).symm
  | @returns media samples l l' _ acts _ finishes =>
    have during := Acts.due yields tells inv steady cuts acts
    have new : announced [.segments l'.metadata l'.osBufData] = l'.metadata := by
      simp [announced]
    rw [new]
    cases finishes <;> exact during
  | throws => exact absurd rfl (returns _)

structure Account (pcm : Bytes → Rat → Bytes) (tags : Bytes → Metadata) (s : Stream c)
    (ops : List Op) (replies : List Reply) (t : Stream c) : Prop where
  inv : t.Inv pcm
  steady : t.AllSteady pcm
  complete : t.Complete
  bitrate : t.bitrate = s.bitrate
  files : t.files = s.files ++ appended ops
  due : (∀ e, Reply.threw e ∉ replies) → t.due pcm tags = s.due pcm tags ++ announced replies
  dumped : (∀ e, Reply.threw e ∉ replies) → t.encoder.mkvWriter.dumped =
    s.encoder.mkvWriter.dumped ++ (replies.map Reply.data).flatten

theorem account_nil (inv : s.Inv pcm) (steady : s.AllSteady pcm) (complete : s.Complete) :
    Account pcm tags s [] [] s where
  inv := inv
  steady := steady
  complete := complete
  bitrate := rfl
  files := (List.append_nil _).symm
  due _ := (List.append_nil _).symm
  dumped _ := (List.append_nil _).symm

theorem Account.steps {u : Stream c} {ops : List Op} {replies : List Reply}
    (account : Account pcm tags s ops replies t) (regular : op.Regular pcm tags t)
    (steps : Steps t op u reply) : Account pcm tags s (ops ++ [op]) (replies ++ [reply]) u := by
  constructor
  · exact account.inv.steps regular.yields steps
  · exact account.steady.steps regular.yields account.inv regular.cuts steps
  · exact account.complete.steps account.inv regular.yields regular.inTime steps
  · exact steps.bitrate.trans account.bitrate
  · rw [steps.files, account.files, appended, appended, appended, List.filterMap_append,
      List.append_assoc]
  · intro returns
    obtain ⟨earlier, last⟩ := none_threw_concat returns
    rw [steps.due regular.yields regular.tells account.inv account.steady regular.cuts last,
      account.due earlier, List.append_assoc, announced, announced, announced,
      ← List.flatMap_append]
  · intro returns
    obtain ⟨earlier, last⟩ := none_threw_concat returns
    rw [steps.dumped last, account.dumped earlier, List.append_assoc,
      List.map_append, List.flatten_append]
    simp

theorem run_account {ops : List Op} {replies : List Reply} (inv : s.Inv pcm)
    (steady : s.AllSteady pcm) (complete : s.Complete)
    (regular : Run.Along step (Op.Regular pcm tags) s ops)
    (reached : run s ops = some (t, replies)) : Account pcm tags s ops replies t := by
  obtain ⟨u, us, same, account⟩ := Run.run_induct
    (fun ops replies t => Account pcm tags s ops replies t) (Op.Regular pcm tags)
    (account_nil inv steady complete)
    (fun _ _ t op _ account regular =>
      let ⟨u, reply, stepped, steps⟩ := step_spec account.inv.toReady op
      ⟨u, reply, stepped, account.steps regular steps⟩)
    ops regular
  cases reached.symm.trans same
  exact account

theorem Account.closed {ops : List Op} {replies : List Reply}
    (account : Account pcm tags s ops replies t) (closed : t.encoder.done = true) :
    t.due pcm tags = recordsOf pcm tags (s.files ++ appended ops) ∧
    t.encoder.view = ((EncoderImpl.create c 48000 2).view.feed s.bitrate
      ((s.files ++ appended ops).flatMap fun file => wholeFloats (pcm file.1 file.2))).finalize
        s.bitrate ∧
    t.encoder.mkvWriter.dumped = written t.encoder.calls := by
  obtain ⟨drained, view⟩ := account.complete closed
  have fed := fed_whole account.inv account.steady drained
  refine ⟨?_, ?_, ?_⟩
  · rw [Stream.due, opened_drained account.inv drained, ← account.files]
    rfl
  · rw [view, fed, account.files, account.bitrate]
  · have all := account.inv.valid.accounted
    rwa [account.inv.drained (.inl closed), List.append_nil] at all

theorem regular_append {s : Stream c} (active : s.encoder.done = false) (filename : Bytes)
    (offs : Rat) : Op.Regular pcm tags s (.append filename offs) :=
  ⟨trivial, trivial, trivial, active⟩

theorem regular_whole {pcm : Bytes → Rat → Bytes} {bitrate : Nat} {ops : List Op} {s : Stream c}
    {replies : List Reply} (files : WholeFiles pcm ops)
    (reached : run (create c bitrate) ops = some (s, replies)) {media : Media} {samples : Nat}
    {tags : Bytes → Metadata} (yields : media.Yields pcm) (tells : media.Tells tags) :
    Op.Regular pcm tags s (.advance media samples) := by
  obtain ⟨_, _, same, inv, framed⟩ := run_framed (c := c) bitrate files
  cases reached.symm.trans same
  exact ⟨yields, tells, op_cutsWhole inv framed.steady framed.whole _, trivial⟩

/-- A call that throws, at any entry, and what comes after it up to the end of the stream,
compared with the same stream without the call. The encoder is given the same frames. The
answers lack what the call had dumped, the records it had made, and the record of the entry
whose metadata could not be had: they are the same exactly when there is nothing of these. -/
theorem failed_call_loses_answer (pcm : Bytes → Rat → Bytes) (tags : Bytes → Metadata)
    (bitrate : Nat) (ops later later' : List Op) (media : Media) (samples : Nat)
    (s t t' : Stream c) (l : Advance c) (e : Exn) (replies rs rs' : List Reply)
    (before : Run.Along step (Op.Regular pcm tags) (create c bitrate) ops)
    (reached : run (create c bitrate) ops = some (s, replies))
    (call : Op.Regular pcm tags s (.advance media samples))
    (thrown : s.advance media samples = .thrown e l)
    (after : Run.Along step (Op.Regular pcm tags) l.stream later)
    (ended : run l.stream later = some (t, rs))
    (without : Run.Along step (Op.Regular pcm tags) s later')
    (ended' : run s later' = some (t', rs'))
    (returns : ∀ e, Reply.threw e ∉ rs) (returns' : ∀ e, Reply.threw e ∉ rs')
    (closed : t.encoder.done = true) (closed' : t'.encoder.done = true)
    (files : appended later = appended later') :
    frames t.encoder.calls = frames t'.encoder.calls ∧
    (rs'.map Reply.data).flatten = l.osBufData ++ (rs.map Reply.data).flatten ∧
    announced rs' = l.metadata ++ l.unannounced tags ++ announced rs ∧
    ((rs'.map Reply.data).flatten = (rs.map Reply.data).flatten ∧ announced rs' = announced rs ↔
      l.osBufData = [] ∧ l.metadata = [] ∧ l.unannounced tags = []) := by
  have start : Account pcm tags (create c bitrate) ops replies s :=
    run_account (create_inv pcm bitrate) (by simp [AllSteady, create, entries])
      (fun closed => by
        have active : (create c bitrate).encoder.done = false := rfl
        exact absurd (active.symm.trans closed) (by decide)) before reached
  have ends := advance_acts media samples start.inv.toReady
  rw [thrown] at ends
  obtain ⟨m, acts, fails⟩ := ends
  have steps : Steps s (.advance media samples) l.stream (.threw e) := .throws thrown acts fails
  have during := (account_nil start.inv start.steady start.complete).steps call steps
  have lost := run_account during.inv during.steady during.complete after ended
  have kept := run_account start.inv start.steady start.complete without ended'
  obtain ⟨due, view, dumped⟩ := lost.closed closed
  obtain ⟨due', view', dumped'⟩ := kept.closed closed'
  have same_files : l.stream.files = s.files := by simpa [appended] using during.files
  rw [same_files, files] at due view
  rw [during.bitrate] at view
  have calls : t.encoder.calls = t'.encoder.calls :=
    congrArg (fun f : Framer c => f.sink.calls) (view.trans view'.symm)
  obtain ⟨due_fails, metadata⟩ : l.stream.due pcm tags =
      m.stream.due pcm tags ++ l.unannounced tags ∧ l.metadata = m.metadata :=
    fails.due call.yields (Inv.acts call.yields start.inv acts)
      (start.steady.acts call.yields start.inv call.cuts acts)
  have due_acts := Acts.due call.yields call.tells start.inv start.steady call.cuts acts
  have data : (rs'.map Reply.data).flatten = l.osBufData ++ (rs.map Reply.data).flatten := by
    rw [kept.dumped returns'] at dumped'
    rw [lost.dumped returns, fails.encoder.1, acts.dumped, ← fails.encoder.2, calls, ← dumped',
      List.append_assoc] at dumped
    exact (List.append_cancel_left dumped).symm
  have records : announced rs' = l.metadata ++ l.unannounced tags ++ announced rs := by
    rw [kept.due returns'] at due'
    rw [lost.due returns, due_fails, due_acts, ← metadata, ← due'] at due
    simp only [List.append_assoc] at due ⊢
    exact (List.append_cancel_left due).symm
  refine ⟨congrArg frames calls, data, records, ?_⟩
  rw [data, records, List.append_left_eq_self, List.append_left_eq_self, List.append_eq_nil_iff]

def unprobed : Media where
  decoder filename offs := .ok (.finite (twoSamples filename offs))
  metadata filename := if filename = str "c" then .error ⟨"stold"⟩ else .ok .unknown

def playlist : List Op := [.append (str "b") 0, .append (str "c") 0]

/-- A call that throws at the second file, and a call for the rest. Without the first one
both files are announced and the answers begin with the header of the container. -/
theorem failed_call_loses_header :
    (run (create Codec.plain 196000)
        (playlist ++ [.advance unprobed 2, .advance (.ofFiles twoSamples) 3])).map
      (fun r => ((r.2.map Reply.data).flatten, (announced r.2).map Record.filename)) =
        some ([0xa3, 0, 0x1c], []) ∧
    (run (create Codec.plain 196000) (playlist ++ [.advance (.ofFiles twoSamples) 3])).map
      (fun r => ((r.2.map Reply.data).flatten, (announced r.2).map Record.filename)) =
        some ([0x1a, 0xa3, 0, 0x1c], [str "b", str "c"]) := by
  decide +kernel

theorem unprobed_yields : unprobed.Yields twoSamples :=
  fun _ _ _ found => (Except.ok.inj found).symm

theorem unprobed_tells : unprobed.Tells fun _ => .unknown := by
  intro filename metadata found
  unfold unprobed at found
  dsimp only at found
  split at found
  · contradiction
  · exact (Except.ok.inj found).symm

theorem playlist_regular :
    Run.Along step (Op.Regular twoSamples fun _ => .unknown) (create Codec.plain 196000) playlist := by
  apply Run.along_cons (regular_append rfl _ _)
  intro t b first
  cases first
  apply Run.along_cons (regular_append rfl _ _)
  exact fun t _ _ => Run.along_nil t

theorem rest_regular {ops : List Op} {s : Stream c} {replies : List Reply}
    (files : WholeFiles twoSamples ops)
    (reached : run (create c 196000) ops = some (s, replies)) (samples : Nat) :
    Run.Along step (Op.Regular twoSamples fun _ => .unknown) s
      [.advance (.ofFiles twoSamples) samples] :=
  Run.along_cons (regular_whole files reached (media_yields _) (ofFiles_tells _))
    fun t _ _ => Run.along_nil t

theorem failed_call_loses_answer_unprobed :
    ∃ (s t t' : Stream Codec.plain) (l : Advance Codec.plain) (e : Exn) (rs rs' : List Reply),
      s.advance unprobed 2 = .thrown e l ∧
      run l.stream [.advance (.ofFiles twoSamples) 3] = some (t, rs) ∧
      run s [.advance (.ofFiles twoSamples) 3] = some (t', rs') ∧
      (rs'.map Reply.data).flatten = l.osBufData ++ (rs.map Reply.data).flatten ∧
      announced rs' = l.metadata ++ l.unannounced (fun _ => .unknown) ++ announced rs := by
  let s : Stream Codec.plain := ((create Codec.plain 196000).append (str "b")).append (str "c")
  have reached : run (create Codec.plain 196000) playlist = some (s, [.appended, .appended]) := rfl
  have evaluated : (match s.advance unprobed 2 with
      | .thrown _ l => (run l.stream [.advance (.ofFiles twoSamples) 3]).map fun r =>
          r.1.encoder.done && r.2.all Reply.returned
      | .done _ | .running => none) = some true := by decide +kernel
  have evaluated' : (run s [.advance (.ofFiles twoSamples) 3]).map (fun r =>
      r.1.encoder.done && r.2.all Reply.returned) = some true := by decide +kernel
  cases thrown : s.advance unprobed 2 with
  | done l => simp [thrown] at evaluated
  | running => simp [thrown] at evaluated
  | thrown e l =>
    rw [thrown] at evaluated
    obtain ⟨t, rs, ended, closed, returns⟩ := run_returned evaluated
    obtain ⟨t', rs', ended', closed', returns'⟩ := run_returned evaluated'
    have files : WholeFiles twoSamples playlist := by
      simp [WholeFiles, playlist, Op.Yields, Op.Whole, twoSamples_whole]
    have files' : WholeFiles twoSamples (playlist ++ [.advance unprobed 2]) := by
      simp [WholeFiles, playlist, Op.Yields, Op.Whole, unprobed_yields, twoSamples_whole]
    have reached' : run (create Codec.plain 196000) (playlist ++ [.advance unprobed 2]) =
        some (l.stream, [.appended, .appended, .threw e]) := by
      have failed : step s (.advance unprobed 2) = some (l.stream, .threw e) := by
        simp [step, thrown]
      rw [Run.run_append_eq_some]
      exact ⟨s, _, _, reached, by simp [Run.run_cons failed], rfl⟩
    obtain ⟨_, data, records, _⟩ := failed_call_loses_answer twoSamples (fun _ => .unknown) 196000 playlist
      _ _ unprobed 2 s t t' l e _ rs rs' playlist_regular reached
      (regular_whole files reached unprobed_yields unprobed_tells) thrown
      (rest_regular files' reached' 3) ended (rest_regular files reached 3) ended' returns returns'
      closed closed' rfl
    exact ⟨s, t, t', l, e, rs, rs', thrown, ended, ended', data, records⟩

end Run

end Stream

end HttpAudioServer
