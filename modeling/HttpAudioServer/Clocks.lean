import HttpAudioServer.Gapless

/-! The two counts of samples, in the stream and in the encoder. They part when a call
comes to audio that the encoder does not take over any more. -/
namespace HttpAudioServer

variable {c : Codec}

def Media.opens (media : Media) (e : Entry) : Bool :=
  e.dec.isSome || ((media.decoder e.filename e.offs).isOk && (media.metadata e.filename).isOk)

/-- A call gets to audio on this playlist, before an entry at which it throws. -/
def Audible (pcm : Bytes → Rat → Bytes) (media : Media) (entries : List Entry) : Prop :=
  ∃ e ∈ entries.takeWhile media.opens, e.unread pcm ≠ []

theorem audible_cons {pcm : Bytes → Rat → Bytes} {media : Media} {e : Entry} (later : List Entry)
    (opens : media.opens e = true) :
    Audible pcm media (e :: later) ↔ e.unread pcm ≠ [] ∨ Audible pcm media later := by
  simp [Audible, opens]

theorem not_audible_nil (pcm : Bytes → Rat → Bytes) (media : Media) : ¬ Audible pcm media [] := by
  simp [Audible]

theorem not_audible_blocked {pcm : Bytes → Rat → Bytes} {media : Media} {e : Entry}
    (later : List Entry) (blocked : media.opens e = false) : ¬ Audible pcm media (e :: later) := by
  simp [Audible, blocked]

namespace Stream

section Call

variable {pcm : Bytes → Rat → Bytes} {media : Media} {l l' : Advance c}

theorem Fails.blocked (fails : Fails media l l') : ¬ Audible pcm media l.stream.decoders := by
  cases fails with
  | @decoder e later error front fresh failed =>
    rw [front]
    apply not_audible_blocked
    simp [Media.opens, fresh, failed, Except.isOk, Except.toBool]
  | @metadata e later output error front fresh decoder failed =>
    rw [front]
    apply not_audible_blocked
    simp [Media.opens, fresh, failed, Except.isOk, Except.toBool]

structure WholeSizes (pcm : Bytes → Rat → Bytes) (l : Advance c) : Prop where
  request : 8 ∣ l.nBytes
  unread : ∀ u ∈ l.stream.unreads pcm, 8 ∣ u.length

theorem Act.wholeSizes (yields : media.Yields pcm) (inv : l.stream.Inv pcm)
    (sizes : WholeSizes pcm l) (act : Act media l l') : WholeSizes pcm l' := by
  cases act with
  | @opens e later output metadata front fresh decoder probe =>
    have unreads := unreads_opens yields front fresh decoder
      (some ⟨(l.stream.nSamples : Rat) / 48000, e.filename, metadata⟩)
    exact ⟨sizes.request, fun u member => sizes.unread u (unreads ▸ member)⟩
  | @reads e later d next got encoder out wanted front dec taken left log fed =>
    obtain ⟨got_eq, unreads⟩ := unreads_reads inv front dec taken left log encoder out
    have unread := sizes.unread
    rw [unreads_front front] at unread
    have first : 8 ∣ (e.unread pcm).length := unread _ List.mem_cons_self
    have request := sizes.request
    constructor
    · have size : got.length = min l.nBytes (e.unread pcm).length := by
        rw [got_eq, List.length_take]
      simp only [Advance.read]
      omega
    · intro u member
      rw [unreads] at member
      rcases List.mem_cons.mp member with rfl | still
      · rw [List.length_drop]
        omega
      · exact unread u (List.mem_cons_of_mem _ still)
  | @pops e later d wanted front dec ended =>
    have unread := sizes.unread
    rw [unreads_front front] at unread
    exact ⟨sizes.request, fun u member => unread u (List.mem_cons_of_mem _ member)⟩

/-- Until a call has come to audio it counts and consumes nothing, and it comes to audio
exactly if there is any. -/
inductive Heard (pcm : Bytes → Rat → Bytes) (media : Media) (l l' : Advance c) : Prop where
  | still (same : Audible pcm media l'.stream.decoders ↔ Audible pcm media l.stream.decoders)
      (count : l'.stream.nSamples = l.stream.nSamples) (request : l'.nBytes = l.nBytes)
  | heard (audible : Audible pcm media l.stream.decoders) (wanted : 0 < l.nBytes)
      (count : l.stream.nSamples < l'.stream.nSamples)

theorem Act.heard (yields : media.Yields pcm) (inv : l.stream.Inv pcm) (sizes : WholeSizes pcm l)
    (act : Act media l l') : Heard pcm media l l' := by
  cases act with
  | @opens e later output metadata front fresh decoder probe =>
    have finite : output = .finite (e.output pcm) := yields _ _ _ decoder
    have opens : media.opens e = true := by
      simp [Media.opens, decoder, probe, Except.isOk, Except.toBool]
    refine .still ?_ rfl rfl
    rw [front, audible_cons _ opens, Entry.unread_of_none fresh]
    simp only [Advance.opened, Advance.withFront]
    rw [audible_cons _ rfl]
    subst finite
    exact Iff.rfl
  | @reads e later d next got encoder out wanted front dec taken left log fed =>
    have opens : media.opens e = true := by simp [Media.opens, dec]
    obtain ⟨got_eq, unread, _⟩ := Entry.tracks_read (inv.front_tracks front) dec taken left log
    by_cases ended : e.unread pcm = []
    · have nothing : got = [] := by rw [got_eq, ended, List.take_nil]
      subst nothing
      refine .still ?_ rfl rfl
      simp only [Advance.read]
      rw [front, audible_cons _ opens, audible_cons _ rfl, unread, ended, List.drop_nil]
    · have size : got.length = min l.nBytes (e.unread pcm).length := by
        rw [got_eq, List.length_take]
      have first : 8 ∣ (e.unread pcm).length :=
        sizes.unread _ (by rw [unreads_front front]; exact List.mem_cons_self)
      have some_left : 0 < (e.unread pcm).length := List.length_pos_iff.mpr ended
      have request := sizes.request
      refine .heard ?_ wanted ?_
      · rw [front, audible_cons _ opens]
        exact .inl ended
      · simp only [Advance.read]
        omega
  | @pops e later d wanted front dec ended =>
    have opens : media.opens e = true := by simp [Media.opens, dec]
    refine .still ?_ rfl rfl
    rw [front, audible_cons _ opens, Entry.unread_of_some dec ended]
    simp [Advance.popped]

theorem Act.counts (act : Act media l l') : l.stream.nSamples ≤ l'.stream.nSamples := by
  cases act with
  | opens => exact Nat.le_refl _
  | reads => exact Nat.le_add_right _ _
  | pops => exact Nat.le_refl _

theorem Acts.heard (yields : media.Yields pcm) (inv : l.stream.Inv pcm) (sizes : WholeSizes pcm l)
    (acts : Acts media l l') : Heard pcm media l l' ∧ WholeSizes pcm l' := by
  induction acts with
  | refl => exact ⟨.still Iff.rfl rfl rfl, sizes⟩
  | tail before act ih =>
    obtain ⟨first, sizes'⟩ := ih
    have inv' := inv.acts yields before
    refine ⟨?_, act.wholeSizes yields inv' sizes'⟩
    cases first with
    | still same count request =>
      cases act.heard yields inv' sizes' with
      | still same' count' request' =>
        exact .still (same'.trans same) (count'.trans count) (request'.trans request)
      | heard audible wanted count' =>
        exact .heard (same.mp audible) (request ▸ wanted) (count ▸ count')
    | heard audible wanted count => exact .heard audible wanted (Nat.lt_of_lt_of_le count act.counts)

end Call

/-- A call does not come to audio: nothing is wanted, or nothing is left before an entry at
which the call throws. -/
def Op.Still (pcm : Bytes → Rat → Bytes) (s : Stream c) : Op → Prop
  | .append _ _ => True
  | .advance media samples => 0 < samples → ¬ Audible pcm media s.decoders

theorem Steps.counts {pcm : Bytes → Rat → Bytes} {s t : Stream c} {op : Op} {reply : Reply}
    (yields : op.Yields pcm) (inv : s.Inv pcm) (steady : s.AllSteady pcm) (whole : s.AllWhole pcm)
    (steps : Steps s op t reply) :
    s.nSamples ≤ t.nSamples ∧ (t.nSamples = s.nSamples ↔ op.Still pcm s) := by
  have unread : ∀ u ∈ s.unreads pcm, 8 ∣ u.length :=
    fun u member => leftovers_whole inv steady whole _ (List.mem_map_of_mem member)
  cases steps with
  | appends => exact ⟨Nat.le_refl _, by simp [Op.Still, Stream.append]⟩
  | @returns media samples l l' returned acts stop finishes =>
    obtain ⟨heard, _⟩ := Acts.heard yields inv ⟨by simp only [Advance.start]; omega, unread⟩ acts
    have kept : l'.stream.nSamples = l.stream.nSamples := by cases finishes <;> rfl
    rw [kept]
    cases heard with
    | still same count request =>
      refine ⟨Nat.le_of_eq count.symm, fun _ wanted => ?_, fun _ => count⟩
      have drained : l.stream.decoders = [] := by
        simp only [wants, request, Advance.start, Bool.and_eq_false_iff, decide_eq_false_iff_not,
          Bool.not_eq_false', List.isEmpty_iff] at stop
        rcases stop with satisfied | drained
        · omega
        · exact drained
      rw [← Advance.start_stream samples s, ← same, drained]
      exact not_audible_nil pcm media
    | heard audible wanted count =>
      refine ⟨Nat.le_of_lt count, fun same => ?_, fun still => ?_⟩
      · exact absurd same (Nat.ne_of_gt count)
      · simp only [Advance.start] at wanted
        exact absurd audible (still (by omega))
  | @throws media samples l l' error thrown acts fails =>
    obtain ⟨heard, _⟩ := Acts.heard yields inv ⟨by simp only [Advance.start]; omega, unread⟩ acts
    have kept : l'.stream.nSamples = l.stream.nSamples := by cases fails <;> rfl
    rw [kept]
    cases heard with
    | still same count request =>
      refine ⟨Nat.le_of_eq count.symm, fun _ wanted => ?_, fun _ => count⟩
      rw [← Advance.start_stream samples s, ← same]
      exact fails.blocked
    | heard audible wanted count =>
      refine ⟨Nat.le_of_lt count, fun same => ?_, fun still => ?_⟩
      · exact absurd same (Nat.ne_of_gt count)
      · simp only [Advance.start] at wanted
        exact absurd audible (still (by omega))

/-- What the encoder has taken over: the samples that it has counted are in its frames and
its buffer, and after them there is only the filling of the last frame. -/
def TakenOver (s : Stream c) : Prop :=
  ∃ filling, (frames s.encoder.calls).flatten ++ s.encoder.view.pending =
    s.fed.take (s.encoder.taken * 2) ++ List.replicate filling 0

theorem Inv.taken {pcm : Bytes → Rat → Bytes} {s : Stream c} (inv : s.Inv pcm)
    (active : s.encoder.done = false) : s.encoder.taken = s.nSamples := by
  have view := congrArg Framer.taken (inv.encoder active)
  have fed : ((EncoderImpl.create c 48000 2).view.feed s.bitrate s.fed).taken =
      0 + s.fed.length / 2 := rfl
  rw [fed, inv.samples] at view
  exact view.trans (by omega)

theorem Inv.takenOver {pcm : Bytes → Rat → Bytes} {s : Stream c} (inv : s.Inv pcm)
    (active : s.encoder.done = false) : s.TakenOver := by
  have view := inv.encoder active
  have sink := congrArg (fun f : Framer c => frames f.sink.calls) view
  have pending := congrArg Framer.pending view
  have blocks : frames s.encoder.calls = Blocks.blocks 3840 s.fed := sink.trans
    (Framer.frames_feed s.bitrate rfl s.fed)
  have rest : s.encoder.view.pending = Blocks.rest 3840 s.fed := pending
  refine ⟨0, ?_⟩
  rw [blocks, rest, Blocks.flatten_blocks_append_rest (by decide), inv.taken active, ← inv.samples,
    List.take_length]
  exact (List.append_nil _).symm

theorem Acts.fed_grows {pcm : Bytes → Rat → Bytes} {media : Media} {l l' : Advance c}
    (yields : media.Yields pcm) (inv : l.stream.Inv pcm) (acts : Acts media l l') :
    ∃ more, l'.stream.fed = l.stream.fed ++ more := by
  induction acts with
  | refl => exact ⟨[], (List.append_nil _).symm⟩
  | @tail m _ before act ih =>
    obtain ⟨more, fed⟩ := ih
    have inv' := inv.acts yields before
    cases act with
    | @opens e later output metadata front fresh decoder probe =>
      have same := flatMap_opens Entry.fed_silent front (inv'.behind front) fresh output
      exact ⟨more, (same _).trans fed⟩
    | @reads e later d next got encoder out wanted front dec taken left log _ =>
      have grown : (m.read e later next got encoder out).stream.fed = m.stream.fed ++ wholeFloats got :=
        flatMap_reads Entry.fed_silent front (inv'.behind front) (Entry.fed_read dec log)
      exact ⟨more ++ wholeFloats got, by rw [grown, fed, List.append_assoc]⟩
    | pops _ front =>
      refine ⟨more, ?_⟩
      rw [Stream.fed, entries_pops front]
      exact fed

theorem Steps.fed_grows {pcm : Bytes → Rat → Bytes} {s t : Stream c} {op : Op} {reply : Reply}
    (yields : op.Yields pcm) (inv : s.Inv pcm) (steps : Steps s op t reply) :
    ∃ more, t.fed = s.fed ++ more := by
  cases steps with
  | appends filename offs =>
    exact ⟨[], by simp [Stream.fed, entries_append, Entry.fed, Entry.reads]⟩
  | returns _ acts _ finishes =>
    have grows := Acts.fed_grows yields inv acts
    cases finishes <;> exact grows
  | throws _ acts fails =>
    obtain ⟨more, fed⟩ := Acts.fed_grows yields inv acts
    have inv' := Inv.acts yields inv acts
    cases fails with
    | decoder => exact ⟨more, fed⟩
    | @metadata e later output error front fresh decoder failed =>
      have same := flatMap_opens Entry.fed_silent front (inv'.behind front) fresh output e.record
      exact ⟨more, same.trans fed⟩

theorem Steps.closed {pcm : Bytes → Rat → Bytes} {s t : Stream c} {op : Op} {reply : Reply}
    (yields : op.Yields pcm) (inv : s.Inv pcm) (steps : Steps s op t reply)
    (active : s.encoder.done = false) (closed : t.encoder.done = true) :
    t.encoder.taken = t.nSamples ∧ t.TakenOver := by
  cases steps with
  | appends => exact absurd (active.symm.trans closed) (by decide)
  | throws _ acts fails =>
    have still := acts.done.trans active
    cases fails <;> exact absurd (still.symm.trans closed) (by decide)
  | @returns media samples l l' returned acts stop finishes =>
    have still := acts.done.trans active
    have inv' := Inv.acts yields inv acts
    cases finishes with
    | stays => exact absurd (still.symm.trans closed) (by decide)
    | closes _ finalised =>
      obtain ⟨frames, pending, taken⟩ := inv'.finalised still finalised
      refine ⟨taken, 3840 - l.stream.fed.length % 3840, ?_⟩
      simp only
      rw [frames, pending, taken, List.append_nil, Blocks.flatten_framed (by decide), ← inv'.samples]
      exact congrArg (· ++ _) (List.take_length).symm

def Op.TakenOver (pcm : Bytes → Rat → Bytes) (s : Stream c) (op : Op) : Prop :=
  s.encoder.done = true → op.Still pcm s

structure Clocks (pcm : Bytes → Rat → Bytes) (bitrate : Nat) (ops : List Op) (s : Stream c) :
    Prop where
  steady : s.AllSteady pcm
  whole : s.AllWhole pcm
  behind : s.encoder.taken ≤ s.nSamples
  agree : s.encoder.taken = s.nSamples ↔
    Run.Along step (fun s op => op.TakenOver pcm s) (create c bitrate) ops
  takenOver : s.TakenOver

theorem Clocks.steps {pcm : Bytes → Rat → Bytes} {bitrate : Nat} {ops : List Op}
    {replies : List Reply} {s t : Stream c} {op : Op} {reply : Reply}
    (reached : run (create c bitrate) ops = some (s, replies)) (inv : s.Inv pcm)
    (clocks : Clocks pcm bitrate ops s) (yields : op.Yields pcm) (whole : op.Whole pcm)
    (steps : Steps s op t reply) : Clocks pcm bitrate (ops ++ [op]) t := by
  have inv' := inv.steps yields steps
  have along : Run.Along step (fun s op => op.TakenOver pcm s) (create c bitrate) (ops ++ [op]) ↔
      s.encoder.taken = s.nSamples ∧ op.TakenOver pcm s := by
    rw [clocks.agree]
    constructor
    · exact fun all => ⟨all.before, all ops op [] s replies rfl reached⟩
    · rintro ⟨before, last⟩
      apply before.concat
      intro u us reached'
      cases reached.symm.trans reached'
      exact last
  have steady' := clocks.steady.steps yields inv (op_cutsWhole inv clocks.steady clocks.whole op) steps
  have whole' := clocks.whole.steps whole steps
  obtain ⟨grows, still⟩ := steps.counts yields inv clocks.steady clocks.whole
  cases active : s.encoder.done with
  | false =>
    have now : t.encoder.taken = t.nSamples ∧ t.TakenOver := by
      cases closed : t.encoder.done with
      | false => exact ⟨inv'.taken closed, inv'.takenOver closed⟩
      | true => exact steps.closed yields inv active closed
    refine ⟨steady', whole', Nat.le_of_eq now.1, ?_, now.2⟩
    rw [along]
    refine ⟨fun _ => ⟨inv.taken active, fun closed => ?_⟩, fun _ => now.1⟩
    exact absurd (active.symm.trans closed) (by decide)
  | true =>
    have idle := steps.idle active
    have behind := clocks.behind
    refine ⟨steady', whole', by rw [idle]; omega, ?_, ?_⟩
    · have taken : op.TakenOver pcm s ↔ op.Still pcm s := ⟨fun h => h active, fun h _ => h⟩
      rw [along, idle, taken, ← still]
      omega
    · obtain ⟨filling, frames⟩ := clocks.takenOver
      obtain ⟨more, fed⟩ := steps.fed_grows yields inv
      refine ⟨filling, ?_⟩
      have inside : s.encoder.taken * 2 ≤ s.fed.length := by
        rw [inv.samples]
        omega
      rw [idle, frames, fed, List.take_append_of_le_length inside]

/-- The two clocks agree after a run exactly if no call on the finalised stream came to
audio. What the encoder counts is what it has in its frames and its buffer. -/
theorem clocks_agree_iff (pcm : Bytes → Rat → Bytes) (bitrate : Nat) (ops : List Op)
    (files : WholeFiles pcm ops) :
    ∃ t replies, run (create c bitrate) ops = some (t, replies) ∧
      (t.nSamples = t.encoder.taken ↔
        Run.Along step (fun s op => op.TakenOver pcm s) (create c bitrate) ops) ∧
      ∃ filling, (frames t.encoder.calls).flatten ++ t.encoder.view.pending =
        (t.entries.flatMap Entry.fed).take (t.encoder.taken * 2) ++ List.replicate filling 0 := by
  have initial : Clocks pcm bitrate [] (create c bitrate) :=
    { steady := by simp [AllSteady, create, entries]
      whole := by simp [AllWhole, create, Stream.files, entries]
      behind := Nat.le_refl _
      agree := ⟨fun _ => Run.along_nil _, fun _ => rfl⟩
      takenOver := (create_inv pcm bitrate).takenOver rfl }
  obtain ⟨t, replies, reached, _, clocks⟩ := run_keeps pcm bitrate
    (fun ops _ s => Clocks pcm bitrate ops s) (fun _ op => op.Whole pcm) initial
    (fun _ _ _ _ _ _ reached inv clocks yields whole steps =>
      clocks.steps reached inv yields whole steps)
    ops files.1 (Run.along_of_forall files.2)
  exact ⟨t, replies, reached, eq_comm.trans clocks.agree, clocks.takenOver⟩

/-- A request before the first append finalises the encoder. The file appended then is
announced and counted, and nothing of it is ever encoded. -/
theorem late_file_is_discarded :
    (run (create Codec.plain 196000)
        [.advance (.ofFiles twoSamples) 1, .append (str "b") 0, .advance (.ofFiles twoSamples) 1]).map
      (fun r => (r.1.nSamples, r.1.encoder.taken, (frames r.1.encoder.calls).flatten.all (· == 0))) =
        some (1, 0, true) ∧
    (run (create Codec.plain 196000)
        [.advance (.ofFiles twoSamples) 1, .append (str "b") 0, .advance (.ofFiles twoSamples) 1]).map
      (fun r => r.1.entries.map fun e => (e.record.map Record.start, e.delivered)) =
        some [(some 0, List.replicate 8 1)] := by
  decide +kernel

theorem clocks_agree_iff_one_file :
    ∃ t replies, run (create Codec.plain 196000) (oneFile ++ [.advance (.ofFiles twoSamples) 1]) =
        some (t, replies) ∧ t.nSamples = t.encoder.taken := by
  have files : WholeFiles twoSamples (oneFile ++ [.advance (.ofFiles twoSamples) 1]) := by
    simp [WholeFiles, oneFile, Op.Yields, Op.Whole, media_yields, twoSamples_whole]
  have opened : (run (create Codec.plain 196000) oneFile).map
      (fun r => r.1.encoder.done) = some false := by decide +kernel
  obtain ⟨t, replies, reached, agree, _⟩ := clocks_agree_iff (c := Codec.plain) twoSamples 196000 _ files
  refine ⟨t, replies, reached, agree.mpr ?_⟩
  refine ((Run.along_nil _).concat ?_).concat ?_
  · exact fun _ _ _ _ => trivial
  · intro s replies reached closed
    obtain ⟨u, _, same, active⟩ := run_done opened
    cases reached.symm.trans same
    exact absurd (active.symm.trans closed) (by decide)

end Stream

end HttpAudioServer
